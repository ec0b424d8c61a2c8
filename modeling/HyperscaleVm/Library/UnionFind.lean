import Mathlib.Data.Fin.Basic
import Mathlib.Logic.Relation
import Mathlib.Order.Fin.Basic
import Mathlib.Order.MinMax

/-!
# Union-find on an ordered forest, with path halving

A parent table over `Fin n` in which no element points above itself. The search rewrites
the table while it walks, so every statement about classes is made through `rootOf`, which
the rewriting leaves alone.
-/

namespace HyperscaleVm.Library

structure Forest (n : ℕ) where
  parent : Vector (Fin n) n
  parent_le : ∀ i : Fin n, parent[i] ≤ i

namespace Forest
variable {n : ℕ}

def singletons (n : ℕ) : Forest n where
  parent := Vector.ofFn id
  parent_le i := by simp

def up (f : Forest n) (i : Fin n) : Fin n := f.parent[i]

variable (f : Forest n)

theorem up_le (i : Fin n) : f.up i ≤ i := f.parent_le i

variable {i : Fin n}

theorem up_lt (h : f.up i ≠ i) : f.up i < i :=
  lt_of_le_of_ne (f.up_le i) h

def point (f : Forest n) (i j : Fin n) (h : j ≤ i) : Forest n where
  parent := f.parent.set i j
  parent_le k := by
    have hk := f.parent_le k
    simp only [Fin.getElem_fin, Vector.getElem_set] at hk ⊢
    split
    · rename_i he
      exact (Fin.ext he : i = k) ▸ h
    · exact hk

theorem up_point (i j k : Fin n) (h : j ≤ i) :
    (f.point i j h).up k = if i = k then j else f.up k := by
  simp only [point, up, Fin.getElem_fin, Vector.getElem_set, Fin.val_inj]

def rootOf (f : Forest n) (i : Fin n) : Fin n :=
  if f.up i = i then i else f.rootOf (f.up i)
termination_by i.val
decreasing_by
  rename_i h
  exact Fin.lt_def.mp (f.up_lt h)

theorem chain_induction {P : Fin n → Prop} (root : ∀ i, f.up i = i → P i)
    (step : ∀ i, f.up i ≠ i → P (f.up i) → P i) (i : Fin n) : P i := by
  induction hv : i.val using Nat.strong_induction_on generalizing i with
  | _ v ih =>
    by_cases h : f.up i = i
    · exact root i h
    · exact step i h (ih _ (hv ▸ Fin.lt_def.mp (f.up_lt h)) _ rfl)

theorem rootOf_of_root (h : f.up i = i) : f.rootOf i = i := by
  rw [rootOf, if_pos h]

theorem rootOf_up (i : Fin n) : f.rootOf (f.up i) = f.rootOf i := by
  by_cases h : f.up i = i
  · rw [h]
  · conv_rhs => rw [rootOf, if_neg h]

theorem up_rootOf (i : Fin n) : f.up (f.rootOf i) = f.rootOf i := by
  induction i using f.chain_induction with
  | root i h => rw [rootOf_of_root f h, h]
  | step i _ ih => rw [← rootOf_up f i]; exact ih

theorem rootOf_singletons (i : Fin n) : (singletons n).rootOf i = i :=
  rootOf_of_root _ (by simp [singletons, up])

theorem rootOf_halve (i : Fin n) (h : f.up (f.up i) ≤ i) (k : Fin n) :
    (f.point i (f.up (f.up i)) h).rootOf k = f.rootOf k := by
  induction k using f.chain_induction with
  | root k hk =>
    refine (rootOf_of_root _ ?_).trans (rootOf_of_root f hk).symm
    rw [up_point]
    split
    · rename_i he
      subst he
      rw [hk, hk]
    · exact hk
  | step k hk ih =>
    rw [← rootOf_up, ← rootOf_up f k, up_point]
    split
    · rename_i he
      subst he
      -- the grandparent is what the parent still points at
      rw [← ih, ← rootOf_up _ (f.up i), up_point, if_neg (Ne.symm hk)]
    · exact ih

theorem rootOf_link (r s : Fin n) (hr : f.up r = r) (hs : f.up s = s) (h : s ≤ r) (k : Fin n) :
    (f.point r s h).rootOf k = if f.rootOf k = r then s else f.rootOf k := by
  have hs' : (f.point r s h).up s = s := by rw [up_point]; split <;> simp [hs]
  induction k using f.chain_induction with
  | root k hk =>
    rw [rootOf_of_root f hk, ← rootOf_up, up_point]
    by_cases hkr : r = k
    · rw [if_pos hkr, if_pos hkr.symm, rootOf_of_root _ hs']
    · rw [if_neg hkr, if_neg (Ne.symm hkr), hk]
      exact rootOf_of_root _ (by rw [up_point, if_neg hkr, hk])
  | step k hk ih =>
    have hkr : r ≠ k := fun he => hk (he ▸ hr)
    rw [← rootOf_up, up_point, if_neg hkr, ih, rootOf_up]

/-- The search with path halving; `fuel` bounds the loop, which every step
away from a root takes strictly down. -/
def findLoop : ℕ → Forest n → Fin n → Fin n × Forest n
  | 0, f, i => (i, f)
  | fuel + 1, f, i =>
    if f.up i = i then (i, f)
    else
      let f := f.point i (f.up (f.up i)) ((f.up_le _).trans (f.up_le i))
      findLoop fuel f (f.up i)

def find (f : Forest n) (i : Fin n) : Fin n × Forest n := findLoop (i.val + 1) f i

def union (f : Forest n) (i j : Fin n) : Forest n :=
  let (a, f) := f.find i
  let (b, f) := f.find j
  f.point (max a b) (min a b) min_le_max

theorem findLoop_spec (fuel : ℕ) (f : Forest n) (i : Fin n) (h : i.val < fuel) :
    (findLoop fuel f i).1 = f.rootOf i ∧ ∀ k, (findLoop fuel f i).2.rootOf k = f.rootOf k := by
  induction fuel generalizing f i with
  | zero => omega
  | succ fuel ih =>
    simp only [findLoop]
    split
    · rename_i hi
      exact ⟨(rootOf_of_root f hi).symm, fun _ => rfl⟩
    rename_i hi
    have hle : f.up (f.up i) ≤ i := (f.up_le _).trans (f.up_le i)
    have hup : (f.point i (f.up (f.up i)) hle).up i = f.up (f.up i) := by
      rw [up_point, if_pos rfl]
    have hlt : (f.up (f.up i)).val < fuel := by
      have h1 := Fin.lt_def.mp (f.up_lt hi)
      have h2 := Fin.le_def.mp (f.up_le (f.up i))
      omega
    obtain ⟨h1, h2⟩ := ih (f.point i (f.up (f.up i)) hle) (f.up (f.up i)) hlt
    rw [hup]
    refine ⟨?_, fun k => (h2 k).trans (rootOf_halve f i hle k)⟩
    rw [h1, rootOf_halve, rootOf_up, rootOf_up]

theorem find_fst (i : Fin n) : (f.find i).1 = f.rootOf i :=
  (findLoop_spec _ f i (Nat.lt_succ_self _)).1

theorem find_rootOf (i k : Fin n) : (f.find i).2.rootOf k = f.rootOf k :=
  (findLoop_spec _ f i (Nat.lt_succ_self _)).2 k

theorem rootOf_union (i j k : Fin n) : (f.union i j).rootOf k =
      if f.rootOf k = max (f.rootOf i) (f.rootOf j) then min (f.rootOf i) (f.rootOf j)
      else f.rootOf k := by
  simp only [union, find_fst, find_rootOf]
  have hup : ∀ r, ((f.find i).2.find j).2.up (f.rootOf r) = f.rootOf r := by
    intro r
    have hr : ((f.find i).2.find j).2.rootOf r = f.rootOf r := by
      rw [find_rootOf, find_rootOf]
    rw [← hr]
    exact up_rootOf _ r
  have hmax : ((f.find i).2.find j).2.up (max (f.rootOf i) (f.rootOf j)) =
      max (f.rootOf i) (f.rootOf j) := by
    rcases max_choice (f.rootOf i) (f.rootOf j) with h | h <;> rw [h] <;> exact hup _
  have hmin : ((f.find i).2.find j).2.up (min (f.rootOf i) (f.rootOf j)) =
      min (f.rootOf i) (f.rootOf j) := by
    rcases min_choice (f.rootOf i) (f.rootOf j) with h | h <;> rw [h] <;> exact hup _
  rw [rootOf_link _ _ _ hmax hmin min_le_max, find_rootOf, find_rootOf]

def Same (f : Forest n) (i j : Fin n) : Prop := f.rootOf i = f.rootOf j

def Coarsens (f g : Forest n) : Prop := ∀ i j, f.Same i j → g.Same i j

theorem coarsens_union (i j : Fin n) : f.Coarsens (f.union i j) := by
  intro a b hab
  unfold Same at hab ⊢
  rw [rootOf_union, rootOf_union, hab]

theorem union_same (i j : Fin n) : (f.union i j).Same i j := by
  unfold Same
  rw [rootOf_union, rootOf_union]
  rcases le_total (f.rootOf i) (f.rootOf j) with h | h
  · rw [max_eq_right h, min_eq_left h, if_pos rfl]
    split <;> simp_all
  · rw [max_eq_left h, min_eq_right h, if_pos rfl]
    split <;> simp_all

variable {R : Fin n → Fin n → Prop} {j : Fin n}

theorem union_within (hR : Equivalence R) (f : Forest n)
    (hf : ∀ a b, f.Same a b → R a b) (hij : R i j) : ∀ a b, (f.union i j).Same a b → R a b := by
  -- every element is related to its new root, by way of its old one
  have hroot : ∀ a, R a (f.rootOf a) := fun a =>
    hf a _ (f.rootOf_of_root (f.up_rootOf a)).symm
  have hmm : R (max (f.rootOf i) (f.rootOf j)) (min (f.rootOf i) (f.rootOf j)) := by
    have hrr : R (f.rootOf i) (f.rootOf j) :=
      hR.trans (hR.symm (hroot i)) (hR.trans hij (hroot j))
    rcases le_total (f.rootOf i) (f.rootOf j) with h | h
    · rw [max_eq_right h, min_eq_left h]; exact hR.symm hrr
    · rw [max_eq_left h, min_eq_right h]; exact hrr
  have hnew : ∀ a, R a ((f.union i j).rootOf a) := by
    intro a
    rw [rootOf_union]
    split
    · rename_i h
      exact hR.trans (hroot a) (h ▸ hmm)
    · exact hroot a
  intro a b hab
  exact hR.trans (hnew a) (hR.symm (hab ▸ hnew b))

theorem Coarsens.trans {f g h : Forest n} (hfg : f.Coarsens g) (hgh : g.Coarsens h) :
    f.Coarsens h := fun i j hij => hgh i j (hfg i j hij)

variable {α : Type*}

theorem coarsens_foldl {σ : Type*} (forest : σ → Forest n) (step : σ → α → σ)
    (h : ∀ s a, (forest s).Coarsens (forest (step s a))) (l : List α) (s : σ) :
    (forest s).Coarsens (forest (l.foldl step s)) := by
  induction l generalizing s with
  | nil => exact fun _ _ h => h
  | cons a l ih => exact (h s a).trans (ih (step s a))

theorem same_foldl (step : Forest n → α → Forest n)
    (h : ∀ (f : Forest n) a, f.Coarsens (step f a)) {l : List α} {a : α} (ha : a ∈ l)
    (hij : ∀ f, (step f a).Same i j) (f : Forest n) : (l.foldl step f).Same i j := by
  induction l generalizing f with
  | nil => cases ha
  | cons b l ih =>
    rcases List.mem_cons.mp ha with rfl | ha
    · exact coarsens_foldl id step h l (step f a) i j (hij f)
    · exact ih ha (step f b)

def unionAll (f : Forest n) (i : Fin n) (js : List (Fin n)) : Forest n :=
  js.foldl (fun f j => f.union i j) f

theorem coarsens_unionAll (i : Fin n) (js : List (Fin n)) : f.Coarsens (f.unionAll i js) :=
  coarsens_foldl id _ (fun f j => f.coarsens_union i j) js f

variable {js : List (Fin n)}

theorem unionAll_same (i : Fin n) (h : j ∈ js) : (f.unionAll i js).Same i j := by
  induction js generalizing f with
  | nil => cases h
  | cons k js ih =>
    rcases List.mem_cons.mp h with rfl | h
    · exact coarsens_unionAll (f.union i j) i js i j (f.union_same i j)
    · exact ih (f.union i k) h

theorem unionAll_within (hR : Equivalence R) (f : Forest n)
    (hf : ∀ a b, f.Same a b → R a b) (h : ∀ j ∈ js, R i j) :
    ∀ a b, (f.unionAll i js).Same a b → R a b := by
  induction js generalizing f with
  | nil => exact hf
  | cons j js ih =>
    exact ih (f.union i j) (f.union_within hR hf (h j List.mem_cons_self))
      fun k hk => h k (List.mem_cons_of_mem _ hk)

end Forest
end HyperscaleVm.Library

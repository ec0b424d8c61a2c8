import HyperscaleVm.Library.OrdMap

/-!
# Totals of finite maps
-/

namespace HyperscaleVm.Library
open List Option
open Std (ExtTreeMap)

section

variable {α β : Type} [LinearOrder α] {m : ExtTreeMap α β} {k : α} {v : β}

theorem mem_toList {p : α × β} : p ∈ m.toList ↔ m[p.1]? = some p.2 :=
  ExtTreeMap.mem_toList_iff_getElem?_eq_some

theorem nodup_toList : m.toList.Nodup := (nodup_keys m).of_map _

theorem toList_insert_perm : (m.insert k v).toList.Perm ((k, v) :: (m.erase k).toList) := by
  refine (perm_ext_iff_of_nodup nodup_toList ?_).mpr fun p => ?_
  · refine nodup_cons.mpr ⟨fun h => ?_, nodup_toList⟩
    rw [mem_toList] at h
    simp at h
  · rw [mem_toList, mem_cons, mem_toList, ExtTreeMap.getElem?_insert, ExtTreeMap.getElem?_erase]
    obtain ⟨key, value⟩ := p
    by_cases hk : k = key
    · subst hk
      simp [eq_comm]
    · simp [hk, Ne.symm hk]

variable {M : Type} [AddCommMonoid M] (f : α → β → M)

def sumBy (m : ExtTreeMap α β) : M := (m.toList.map fun p => f p.1 p.2).sum

theorem sumBy_insert_erase : sumBy f (m.insert k v) = f k v + sumBy f (m.erase k) := by
  unfold sumBy
  rw [(toList_insert_perm.map fun p => f p.1 p.2).sum_eq]
  simp

theorem sumBy_erase : sumBy f (m.erase k) + (m[k]?.map (f k)).getD 0 = sumBy f m := by
  cases h : m[k]? with
  | none =>
    have heq : m.erase k = m := by
      ext key value
      rw [ExtTreeMap.getElem?_erase]
      by_cases hk : k = key
      · subst hk
        simp [h]
      · simp [hk]
    simp [heq]
  | some value =>
    have heq : m.insert k value = m := by
      ext key other
      rw [ExtTreeMap.getElem?_insert]
      by_cases hk : k = key
      · subst hk
        simp [h]
      · simp [hk]
    have hsplit := sumBy_insert_erase f (m := m) (k := k) (v := value)
    rw [heq] at hsplit
    rw [hsplit, map_some, getD_some, add_comm]

theorem sumBy_insert : sumBy f (m.insert k v) + (m[k]?.map (f k)).getD 0 = sumBy f m + f k v := by
  rw [sumBy_insert_erase, ← sumBy_erase f (m := m) (k := k)]
  abel

end

section

variable {α : Type} [LinearOrder α] {m : ExtTreeMap α ℕ} {k : α} {v : ℕ}

def values (m : ExtTreeMap α ℕ) : List ℕ := m.toList.map Prod.snd

def total (m : ExtTreeMap α ℕ) : ℕ := (values m).sum

theorem total_erase : total (m.erase k) + m[k]?.getD 0 = total m := by
  have h := sumBy_erase (fun _ n => n) (m := m) (k := k)
  rw [Option.map_id'] at h
  exact h

theorem total_insert : total (m.insert k v) + m[k]?.getD 0 = total m + v := by
  have h := sumBy_insert (fun _ n => n) (m := m) (k := k) (v := v)
  rw [Option.map_id'] at h
  exact h

theorem value_le_total (h : m[k]? = some v) : v ≤ total m := by
  have hsplit := total_erase (m := m) (k := k)
  rw [h, getD_some] at hsplit
  omega

end

def ascending (s : Finset ℕ) : List ℕ :=
  Quot.liftOn s.val (fun l => l.insertionSort (· ≤ ·)) fun a b h =>
    List.Perm.eq_of_pairwise' (pairwise_insertionSort _ a) (pairwise_insertionSort _ b)
      (((perm_insertionSort _ a).trans h).trans (perm_insertionSort _ b).symm)

@[simp]
theorem mem_ascending {s : Finset ℕ} {n : ℕ} : n ∈ ascending s ↔ n ∈ s := by
  obtain ⟨⟨l⟩, hl⟩ := s
  exact (perm_insertionSort _ l).mem_iff

theorem toFinset_ascending (s : Finset ℕ) : (ascending s).toFinset = s := by
  ext n
  rw [List.mem_toFinset, mem_ascending]

theorem sum_le_of_owned {α ι : Type} [DecidableEq α] {members : Finset α} {indices : Finset ι}
    {own : ι → Finset α} {f : α → ℕ} {w : ι → ℕ}
    (h : ∀ a ∈ members, ∃ i ∈ indices, a ∈ own i ∧ f a ≤ w i) :
    ∑ a ∈ members, f a ≤ ∑ i ∈ indices, (own i).card * w i := by
  calc ∑ a ∈ members, f a
      ≤ ∑ a ∈ members, ∑ i ∈ indices, (if a ∈ own i then w i else 0) := by
        refine Finset.sum_le_sum fun a ha => ?_
        obtain ⟨i, hi, hown, hle⟩ := h a ha
        have hone : w i = if a ∈ own i then w i else 0 := (if_pos hown).symm
        refine (hle.trans_eq hone).trans ?_
        exact Finset.single_le_sum (f := fun i => if a ∈ own i then w i else 0)
          (fun _ _ => Nat.zero_le _) hi
    _ = ∑ i ∈ indices, ∑ a ∈ members, (if a ∈ own i then w i else 0) := Finset.sum_comm
    _ ≤ ∑ i ∈ indices, (own i).card * w i := by
        refine Finset.sum_le_sum fun i _ => ?_
        rw [← Finset.sum_filter, Finset.sum_const, smul_eq_mul]
        refine Nat.mul_le_mul_right _ (Finset.card_le_card fun a ha => ?_)
        exact (Finset.mem_filter.mp ha).2

theorem sum_zipWith_set {α β : Type} (g : α → β → ℕ) {as : List α} {bs : List β} {i : ℕ}
    {a : α} {b : β} (ha : as[i]? = some a) (hb : bs[i]? = some b) (a' : α) :
    (List.zipWith g (as.set i a') bs).sum + g a b = (List.zipWith g as bs).sum + g a' b := by
  induction as generalizing bs i with
  | nil => simp at ha
  | cons x xs ih =>
    cases bs with
    | nil => simp at hb
    | cons y ys =>
      cases i with
      | zero =>
        simp only [getElem?_cons_zero, some.injEq] at ha hb
        subst ha hb
        simp only [set_cons_zero, zipWith_cons_cons, sum_cons]
        omega
      | succ i =>
        simp only [getElem?_cons_succ] at ha hb
        have hrest := ih ha hb
        simp only [set_cons_succ, zipWith_cons_cons, sum_cons]
        omega

section

variable (bound : ℕ)

def checkedAdd (a b : ℕ) : Option ℕ := if a + b < bound then some (a + b) else none

theorem checkedAdd_eq_some {a b c : ℕ} : checkedAdd bound a b = some c ↔ a + b = c ∧ c < bound := by
  unfold checkedAdd
  split
  · rename_i h
    constructor
    · intro heq
      obtain rfl := some.inj heq
      exact ⟨rfl, h⟩
    · rintro ⟨rfl, -⟩
      rfl
  · rename_i h
    constructor
    · intro heq
      cases heq
    · rintro ⟨rfl, hlt⟩
      exact absurd hlt h

theorem foldlM_checkedAdd {xs : List ℕ} {start result : ℕ} (hstart : start < bound) :
    xs.foldlM (checkedAdd bound) start = some result ↔
      start + xs.sum = result ∧ result < bound := by
  induction xs generalizing start with
  | nil =>
    simp only [foldlM_nil, sum_nil, Nat.add_zero]
    constructor
    · intro h
      obtain rfl := some.inj h
      exact ⟨rfl, hstart⟩
    · rintro ⟨rfl, -⟩
      rfl
  | cons x xs ih =>
    rw [foldlM_cons, sum_cons]
    by_cases hx : start + x < bound
    · have hadd : checkedAdd bound start x = some (start + x) := if_pos hx
      rw [hadd]
      refine (ih hx).trans ?_
      rw [Nat.add_assoc]
    · have hadd : checkedAdd bound start x = none := if_neg hx
      rw [hadd]
      constructor
      · intro h
        cases h
      · rintro ⟨rfl, hlt⟩
        omega

def saturatingAdd (a b : ℕ) : ℕ := min (a + b) (bound - 1)

theorem foldl_saturatingAdd {xs : List ℕ} {start : ℕ} (hstart : start ≤ bound - 1) :
    xs.foldl (saturatingAdd bound) start = min (start + xs.sum) (bound - 1) := by
  induction xs generalizing start with
  | nil => simpa using hstart
  | cons x xs ih =>
    have hstep : saturatingAdd bound start x ≤ bound - 1 := Nat.min_le_right _ _
    rw [foldl_cons, ih hstep, sum_cons]
    unfold saturatingAdd
    omega

end

end HyperscaleVm.Library

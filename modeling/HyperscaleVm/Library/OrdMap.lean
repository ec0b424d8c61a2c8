import HyperscaleVm.Library.Check

/-!
# Ordered maps over a linear order
-/

namespace HyperscaleVm.Library
open List Option
variable {α β : Type*} [LinearOrder α]

instance transCmp : Std.TransCmp (compare : α → α → Ordering) := inferInstance

instance lawfulEqOrd : Std.LawfulEqOrd α where
  eq_of_compare h := compare_eq_iff_eq.mp h

variable (m : Std.ExtTreeMap α β)

@[simp] theorem getElem?_insert_eq (k a : α) (v : β) :
    (m.insert k v)[a]? = if k = a then some v else m[a]? := by
  simp only [Std.ExtTreeMap.getElem?_insert, Std.compare_eq_iff_eq]

@[simp] theorem getElem?_erase_eq (k a : α) : (m.erase k)[a]? = if k = a then none else m[a]? := by
  simp only [Std.ExtTreeMap.getElem?_erase, Std.compare_eq_iff_eq]

@[simp] theorem getElem?_alter_eq (k a : α) (f : Option β → Option β) :
    (m.alter k f)[a]? = if k = a then f m[k]? else m[a]? := by
  simp only [Std.ExtTreeMap.getElem?_alter, Std.compare_eq_iff_eq]

theorem nodup_keys : (m.toList.map Prod.fst).Nodup := by
  rw [nodup_iff_pairwise_ne, pairwise_map]
  exact Std.ExtTreeMap.distinct_keys_toList.imp fun h he => h (Std.compare_eq_iff_eq.mpr he)

theorem sorted_keys : (m.toList.map Prod.fst).Pairwise (· < ·) := by
  rw [pairwise_map]
  exact Std.ExtTreeMap.ordered_keys_toList.imp fun h => compare_lt_iff_lt.mp h

variable {γ : Type*}

theorem find?_toList (m : Std.ExtTreeMap α γ) (a : α) :
    (m.toList.find? fun p => p.1 = a) = m[a]?.map fun v => (a, v) := by
  cases hget : m[a]? with
  | none =>
    rw [map_none, find?_eq_none]
    rintro ⟨k, v⟩ hp heq
    have hk : k = a := by simpa using heq
    rw [Std.ExtTreeMap.mem_toList_iff_getElem?_eq_some, hk, hget] at hp
    cases hp
  | some v =>
    have hmem : (a, v) ∈ m.toList := by
      rw [Std.ExtTreeMap.mem_toList_iff_getElem?_eq_some]
      exact hget
    obtain ⟨q, hq⟩ : ∃ q, m.toList.find? (fun p => p.1 = a) = some q := by
      rw [← isSome_iff_exists, find?_isSome]
      exact ⟨_, hmem, by simp⟩
    have hfst : q.1 = a := by simpa using find?_some hq
    have heq : q = (a, v) :=
      inj_on_of_nodup_map (nodup_keys m) (mem_of_find?_eq_some hq) hmem hfst
    rw [hq, heq, map_some]

variable {f : Std.ExtTreeMap α β → α × γ → Std.ExtTreeMap α β} {g : γ → Option β → Option β}

theorem getElem?_foldl (hf : ∀ m k v a, (f m (k, v))[a]? = if k = a then g v m[a]? else m[a]?)
    {changes : List (α × γ)} (hnodup : (changes.map Prod.fst).Nodup) (m : Std.ExtTreeMap α β)
    (a : α) : (changes.foldl f m)[a]? =
      ((changes.find? fun p => p.1 = a).map fun p => g p.2 m[a]?).getD m[a]? := by
  induction changes generalizing m with
  | nil => rfl
  | cons p changes ih =>
    obtain ⟨k, v⟩ := p
    obtain ⟨hfresh, hnodup⟩ := nodup_cons.mp hnodup
    rw [foldl_cons, ih hnodup, hf, find?_cons]
    by_cases hk : k = a
    · subst hk
      have hnone : changes.find? (fun p => p.1 = k) = none := by
        rw [find?_eq_none]
        intro q hq heq
        exact hfresh (mem_map.mpr ⟨q, hq, by simpa using heq⟩)
      simp [hnone]
    · simp [hk]

theorem getElem?_foldl_toList
    (hf : ∀ m k v a, (f m (k, v))[a]? = if k = a then g v m[a]? else m[a]?)
    (m : Std.ExtTreeMap α β) (changes : Std.ExtTreeMap α γ) (a : α) :
    (changes.toList.foldl f m)[a]? = (changes[a]?.map fun v => g v m[a]?).getD m[a]? := by
  rw [getElem?_foldl hf (nodup_keys changes), find?_toList, Option.map_map]
  rfl

def applyChange (m : Std.ExtTreeMap α β) (change : α × Option β) : Std.ExtTreeMap α β :=
  match change.2 with
  | some v => m.insert change.1 v
  | none => m.erase change.1

def applyChanges (m : Std.ExtTreeMap α β) (changes : Std.ExtTreeMap α (Option β)) :
    Std.ExtTreeMap α β :=
  changes.toList.foldl applyChange m

def extend (m changes : Std.ExtTreeMap α β) : Std.ExtTreeMap α β :=
  changes.toList.foldl (fun m p => m.insert p.1 p.2) m

theorem getElem?_applyChange (k : α) (v : Option β) (a : α) :
    (applyChange m (k, v))[a]? = if k = a then v else m[a]? := by
  cases v <;> simp [applyChange]

@[simp] theorem getElem?_applyChanges (changes : Std.ExtTreeMap α (Option β)) (a : α) :
    (applyChanges m changes)[a]? = changes[a]?.getD m[a]? := by
  rw [applyChanges, getElem?_foldl_toList (g := fun v _ => v) getElem?_applyChange]
  cases changes[a]? <;> rfl

@[simp] theorem getElem?_extend (m changes : Std.ExtTreeMap α β) (a : α) :
    (extend m changes)[a]? = changes[a]?.or m[a]? := by
  rw [extend, getElem?_foldl_toList (g := fun v _ => some v) (by simp)]
  cases changes[a]? <;> rfl

@[simp] theorem applyChanges_empty : applyChanges m ∅ = m := rfl

@[simp] theorem extend_empty : extend m ∅ = m := rfl

theorem applyChanges_extend (c c' : Std.ExtTreeMap α (Option β)) :
    applyChanges m (extend c c') = applyChanges (applyChanges m c) c' := by
  ext a v
  simp only [getElem?_applyChanges, getElem?_extend]
  cases c'[a]? <;> simp

theorem extend_extend (m c c' : Std.ExtTreeMap α β) :
    extend m (extend c c') = extend (extend m c) c' := by
  ext a v
  simp [Option.or_assoc]

theorem applyChanges_insert (c : Std.ExtTreeMap α (Option β)) (k : α)
    (v : Option β) : applyChanges m (c.insert k v) = applyChange (applyChanges m c) (k, v) := by
  ext a w
  rw [getElem?_applyChange, getElem?_applyChanges, getElem?_insert_eq, getElem?_applyChanges]
  by_cases hk : k = a <;> simp [hk]

theorem extend_insert (m c : Std.ExtTreeMap α β) (k : α) (v : β) :
    extend m (c.insert k v) = (extend m c).insert k v := by
  ext a w
  by_cases hk : k = a <;> simp [hk]

section

variable {ε : Type} {α β γ : Type} [LinearOrder α]

def mapEntriesM (f : α → β → Except ε γ) (m : Std.ExtTreeMap α β) :
    Except ε (Std.ExtTreeMap α γ) :=
  m.toList.foldlM (fun built p => (f p.1 p.2).map fun c => built.insert p.1 c) ∅

variable {f : α → β → Except ε γ} {out : Std.ExtTreeMap α γ}

theorem foldlM_insert_ok {entries : List (α × β)}
    (hnodup : (entries.map Prod.fst).Nodup) {built : Std.ExtTreeMap α γ}
    (h : entries.foldlM (fun built p => (f p.1 p.2).map fun c => built.insert p.1 c)
      built = .ok out) :
    (∀ p ∈ entries, ∃ c, f p.1 p.2 = .ok c ∧ out[p.1]? = some c) ∧
      ∀ a, a ∉ entries.map Prod.fst → out[a]? = built[a]? := by
  induction entries generalizing built with
  | nil =>
    cases h
    simp
  | cons p entries ih =>
    obtain ⟨hfresh, hnodup⟩ := nodup_cons.mp hnodup
    rw [foldlM_cons] at h
    obtain ⟨next, hnext, h⟩ := bind_ok.mp h
    obtain ⟨c, hc, rfl⟩ := map_ok.mp hnext
    obtain ⟨hin, hout⟩ := ih hnodup h
    constructor
    · intro q hq
      rcases mem_cons.mp hq with rfl | hq
      · refine ⟨c, hc, ?_⟩
        rw [hout _ hfresh, getElem?_insert_eq, if_pos rfl]
      · exact hin q hq
    · intro a ha
      rw [map_cons, mem_cons, not_or] at ha
      rw [hout a ha.2, getElem?_insert_eq, if_neg (Ne.symm ha.1)]

variable {m : Std.ExtTreeMap α β}

theorem mapEntriesM_ok (h : mapEntriesM f m = .ok out) (a : α) : (m[a]? = none ∧ out[a]? = none) ∨
      ∃ b c, m[a]? = some b ∧ f a b = .ok c ∧ out[a]? = some c := by
  obtain ⟨hin, hout⟩ := foldlM_insert_ok (nodup_keys m) h
  cases hm : m[a]? with
  | none =>
    refine .inl ⟨rfl, ?_⟩
    rw [hout a]
    · simp
    · rintro ha
      obtain ⟨p, hp, rfl⟩ := mem_map.mp ha
      rw [Std.ExtTreeMap.mem_toList_iff_getElem?_eq_some, hm] at hp
      cases hp
  | some b =>
    have hmem : (a, b) ∈ m.toList := Std.ExtTreeMap.mem_toList_iff_getElem?_eq_some.mpr hm
    obtain ⟨c, hc, hget⟩ := hin _ hmem
    exact .inr ⟨b, c, rfl, hc, hget⟩

theorem mapEntriesM_answers
    (h : ∀ a b, m[a]? = some b → ∃ c, f a b = .ok c) : ∃ out, mapEntriesM f m = .ok out := by
  have hfold : ∀ (entries : List (α × β)) (built : Std.ExtTreeMap α γ),
      (∀ p ∈ entries, ∃ c, f p.1 p.2 = .ok c) →
      ∃ out, entries.foldlM (fun built p => (f p.1 p.2).map fun c => built.insert p.1 c) built =
        .ok out := by
    intro entries
    induction entries with
    | nil => exact fun built _ => ⟨built, rfl⟩
    | cons p entries ih =>
      intro built hall
      obtain ⟨c, hc⟩ := hall p mem_cons_self
      obtain ⟨out, hout⟩ := ih (built.insert p.1 c) fun q hq => hall q (mem_cons_of_mem p hq)
      rw [foldlM_cons]
      exact ⟨out, bind_ok.mpr ⟨_, map_ok.mpr ⟨c, hc, rfl⟩, hout⟩⟩
  exact hfold m.toList ∅ fun p hp =>
    h p.1 p.2 (Std.ExtTreeMap.mem_toList_iff_getElem?_eq_some.mp hp)

end

end HyperscaleVm.Library

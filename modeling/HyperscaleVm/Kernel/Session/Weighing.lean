import HyperscaleVm.Kernel.Session.Receipt

/-!
# What the conservation fold weighs
-/

namespace HyperscaleVm.Kernel
open Library List Option
open Std (ExtTreeMap ExtTreeSet)

def sideOf (side : ℕ × ℕ → ℕ) (terms : List (ResourceAddr × ℕ × ℕ)) (resource : ResourceAddr) : ℕ :=
  (terms.map fun term => if term.1 = resource then side term.2 else 0).sum

abbrev gainedOf := sideOf Prod.fst

abbrev lostOf := sideOf Prod.snd

section

variable {side : ℕ × ℕ → ℕ} {terms terms' : List (ResourceAddr × ℕ × ℕ)} {resource : ResourceAddr}

theorem sideOf_append :
    sideOf side (terms ++ terms') resource = sideOf side terms resource +
      sideOf side terms' resource := by
  unfold sideOf
  rw [map_append, sum_append]

theorem sideOf_concat (side : ℕ × ℕ → ℕ) (term : ResourceAddr × ℕ × ℕ) :
    sideOf side (terms ++ [term]) resource =
      sideOf side terms resource + if term.1 = resource then side term.2 else 0 := by
  rw [sideOf_append]
  simp [sideOf]

theorem sideOf_eq_zero (h : ∀ term ∈ terms, term.1 ≠ resource) :
    sideOf side terms resource = 0 := by
  unfold sideOf
  rw [sum_eq_zero]
  intro n hn
  obtain ⟨term, hterm, rfl⟩ := mem_map.mp hn
  exact if_neg (h term hterm)

end

def weighedSide (terms : List (ResourceAddr × ℕ × ℕ)) (resource : ResourceAddr) : Option (ℕ × ℕ) :=
  if gainedOf terms resource < AMOUNT_BOUND ∧ lostOf terms resource < AMOUNT_BOUND then
    some (gainedOf terms resource, lostOf terms resource)
  else none

theorem getElem?_weigh (sides : ExtTreeMap ResourceAddr (Option (ℕ × ℕ)))
    (term : ResourceAddr × ℕ × ℕ) (resource : ResourceAddr) :
    (Session.weigh sides term)[resource]? =
      if term.1 = resource then some (((sides[term.1]?).getD (some (0, 0))).bind fun had => do
        let gained ← checkedAdd AMOUNT_BOUND had.1 term.2.1
        let lost ← checkedAdd AMOUNT_BOUND had.2 term.2.2 return (gained, lost))
      else sides[resource]? := by
  unfold Session.weigh
  rw [getElem?_insert_eq]
  by_cases hterm : term.1 = resource <;> simp [hterm]

theorem getElem?_foldl_weigh (terms : List (ResourceAddr × ℕ × ℕ)) (resource : ResourceAddr) :
    (terms.foldl Session.weigh ∅)[resource]? =
      if terms.any (fun term => term.1 = resource) then some (weighedSide terms resource)
        else none := by
  induction terms using List.reverseRecOn with
  | nil => simp
  | append_singleton terms term ih =>
    rw [foldl_append, foldl_cons, foldl_nil, getElem?_weigh]
    have hgained : gainedOf (terms ++ [term]) resource = _ := sideOf_concat Prod.fst term
    have hlost : lostOf (terms ++ [term]) resource = _ := sideOf_concat Prod.snd term
    by_cases hterm : term.1 = resource
    · subst hterm
      rw [if_pos rfl] at hgained hlost
      rw [if_pos rfl, ih]
      have hstood : (if terms.any (fun t => t.1 = term.1) then some (weighedSide terms term.1)
          else none).getD (some (0, 0)) = weighedSide terms term.1 := by
        split
        · rfl
        rename_i hnone
        have hzero : ∀ t ∈ terms, t.1 ≠ term.1 := by
          intro t ht heq
          exact hnone (any_eq_true.mpr ⟨t, ht, by simpa using heq⟩)
        simp [weighedSide, sideOf_eq_zero hzero, AMOUNT_BOUND]
      have hany : (terms ++ [term]).any (fun t => t.1 = term.1) = true := by simp
      rw [hstood, if_pos hany]
      unfold weighedSide
      rw [hgained, hlost]
      -- a sum under the bound had its first part under the bound
      by_cases hin : gainedOf terms term.1 < AMOUNT_BOUND ∧ lostOf terms term.1 < AMOUNT_BOUND
      · rw [if_pos hin]
        unfold checkedAdd
        dsimp only [bind_eq_bind, bind_some]
        by_cases hg : gainedOf terms term.1 + term.2.1 < AMOUNT_BOUND
        · by_cases hl : lostOf terms term.1 + term.2.2 < AMOUNT_BOUND <;> simp [hg, hl]
        · simp [hg]
      · have hout : ¬(gainedOf terms term.1 + term.2.1 < AMOUNT_BOUND ∧
            lostOf terms term.1 + term.2.2 < AMOUNT_BOUND) := by omega
        rw [if_neg hin, if_neg hout]
        rfl
    · rw [if_neg hterm, Nat.add_zero] at hgained hlost
      have hany : (terms ++ [term]).any (fun t => t.1 = resource) =
          terms.any fun t => t.1 = resource := by simp [hterm]
      rw [if_neg hterm, ih, hany]
      unfold weighedSide
      rw [hgained, hlost]

variable {s : Session} {delta : StateDelta}

theorem Session.unconserved_eq_none :
    s.unconserved delta = none ↔ ∀ resource, gainedOf (s.weights delta) resource < AMOUNT_BOUND ∧
      lostOf (s.weights delta) resource < AMOUNT_BOUND ∧
      gainedOf (s.weights delta) resource = lostOf (s.weights delta) resource := by
  unfold unconserved
  rw [findSome?_eq_none_iff]
  constructor
  · intro h resource
    by_cases hany : (s.weights delta).any (fun term => term.1 = resource) = true
    · have hget := getElem?_foldl_weigh (s.weights delta) resource
      rw [if_pos hany] at hget
      have hmem := h (resource, weighedSide (s.weights delta) resource)
        (ExtTreeMap.mem_toList_iff_getElem?_eq_some.mpr hget)
      unfold weighedSide at hmem
      split at hmem
      · rename_i gained lost hside
        split at hside
        · rename_i hin
          cases hside
          refine ⟨hin.1, hin.2, ?_⟩
          simpa using hmem
        · cases hside
      · cases hmem
    · have hzero : ∀ term ∈ s.weights delta, term.1 ≠ resource := by
        intro term hterm heq
        exact hany (any_eq_true.mpr ⟨term, hterm, by simpa using heq⟩)
      have hgained : gainedOf (s.weights delta) resource = 0 := sideOf_eq_zero hzero
      have hlost : lostOf (s.weights delta) resource = 0 := sideOf_eq_zero hzero
      rw [hgained, hlost]
      norm_num [AMOUNT_BOUND]
  · rintro h ⟨resource, side⟩ hmem
    rw [ExtTreeMap.mem_toList_iff_getElem?_eq_some, getElem?_foldl_weigh] at hmem
    obtain ⟨hgained, hlost, heq⟩ := h resource
    split at hmem
    · obtain rfl := some.inj hmem
      unfold weighedSide
      rw [if_pos ⟨hgained, hlost⟩]
      simp [heq]
    · cases hmem

variable {a b : List ResourceAddr}

theorem mem_resourcesOf {resource : ResourceAddr} :
    resource ∈ resourcesOf a b ↔ resource ∈ a ∨ resource ∈ b := by
  have hfold : ∀ (l : List ResourceAddr) (seen : ExtTreeSet ResourceAddr),
      resource ∈ l.foldl (fun seen r => seen.insert r) seen ↔ resource ∈ seen ∨ resource ∈ l := by
    intro l
    induction l with
    | nil => simp
    | cons r l ih =>
      intro seen
      rw [foldl_cons, ih, ExtTreeSet.mem_insert, Std.compare_eq_iff_eq, mem_cons]
      tauto
  unfold resourcesOf
  rw [ExtTreeSet.mem_toList, hfold]
  simp

theorem nodup_resourcesOf : (resourcesOf a b).Nodup := by
  unfold resourcesOf
  rw [nodup_iff_pairwise_ne]
  exact ExtTreeSet.distinct_toList.imp fun h he => h (Std.compare_eq_iff_eq.mpr he)

def Movement.toward (side : ℕ × ℕ → ℕ) (resource : ResourceAddr) (m : Movement) : ℕ :=
  if m.resource = resource then side (m.credit, m.debit) else 0

variable {side : ℕ × ℕ → ℕ} {resource : ResourceAddr}

theorem sideOf_movements (movements : ExtTreeMap SubstateKey Movement) :
    sideOf side (movements.toList.map fun p => (p.2.resource, p.2.credit, p.2.debit)) resource =
      sumBy (fun _ => Movement.toward side resource) movements := by
  unfold sideOf sumBy
  rw [List.map_map]
  rfl

theorem sideOf_filterMap {α : Type} (holds : α → Option ResourceAddr) (sides : α → ℕ × ℕ)
    (l : List α) :
    sideOf side (l.filterMap fun a => (holds a).map fun r => (r, sides a)) resource =
      (l.map fun a => if holds a = some resource then side (sides a) else 0).sum := by
  induction l with
  | nil => rfl
  | cons a l ih =>
    rw [filterMap_cons, map_cons, sum_cons, ← ih]
    cases hholds : holds a with
    | none => simp
    | some r =>
      unfold sideOf
      rw [map_some, map_cons, sum_cons]
      simp

theorem sideOf_each {resources : List ResourceAddr} (hnodup : resources.Nodup)
    (sides : ResourceAddr → ℕ × ℕ) (hmissed : resource ∉ resources → side (sides resource) = 0) :
    sideOf side (resources.map fun r => (r, sides r)) resource = side (sides resource) := by
  induction resources with
  | nil => exact (hmissed (by simp)).symm
  | cons r resources ih =>
    obtain ⟨hfresh, hnodup⟩ := nodup_cons.mp hnodup
    unfold sideOf at ih ⊢
    rw [map_cons, map_cons, sum_cons]
    by_cases hr : r = resource
    · subst hr
      have hrest : sideOf side (resources.map fun r => (r, sides r)) r = 0 := by
        refine sideOf_eq_zero fun term hterm => ?_
        obtain ⟨r', hr', rfl⟩ := mem_map.mp hterm
        rintro rfl
        exact hfresh hr'
      unfold sideOf at hrest
      rw [hrest]
      simp
    · rw [if_neg hr, Nat.zero_add]
      refine ih hnodup fun hout => hmissed ?_
      rw [mem_cons, not_or]
      exact ⟨Ne.symm hr, hout⟩

theorem getD_of_not_mem_keys {totals : ExtTreeMap ResourceAddr ℕ} (h : resource ∉ totals.keys) :
    totals[resource]?.getD 0 = 0 := by
  rw [ExtTreeMap.mem_keys] at h
  rw [ExtTreeMap.getElem?_eq_none h, getD_none]

theorem EscrowDelta.sides_missed {d : EscrowDelta} (hmissed : resource ∉ d.resources) :
    d.issuedOf resource = 0 ∧ d.claimedOf resource = 0 := by
  unfold EscrowDelta.resources at hmissed
  rw [mem_resourcesOf, not_or] at hmissed
  refine ⟨?_, getD_of_not_mem_keys hmissed.2⟩
  unfold EscrowDelta.issuedOf
  rw [foldl_saturatingAdd _ (Nat.zero_le _), sum_eq_zero]
  · simp
  · intro n hn
    obtain ⟨crossed, hcrossed, rfl⟩ := mem_map.mp hn
    obtain ⟨hin, hresource⟩ := mem_filter.mp hcrossed
    by_contra hne
    refine hmissed.1 (mem_map.mpr ⟨crossed, mem_filter.mpr ⟨hin, ?_⟩, by simpa using hresource⟩)
    simpa [Nat.pos_iff_ne_zero] using hne

theorem Session.sideOf_weights (hzero : side (0, 0) = 0) : sideOf side (s.weights delta) resource =
      sumBy (fun _ => Movement.toward side resource) delta.movements +
      sumBy (fun _ => Movement.toward side resource) delta.settles +
      sumBy (fun key after => if s.entryHolds key.owner key.collection = some resource then
        side (s.flip key after) else 0) delta.entries +
      side (s.supply.burnedOf resource, s.supply.mintedOf resource) +
      side (s.escrow.issuedOf resource, s.escrow.claimedOf resource) := by
  have hsupply : sideOf side (s.supply.resources.map fun r =>
      (r, s.supply.burnedOf r, s.supply.mintedOf r)) resource =
        side (s.supply.burnedOf resource, s.supply.mintedOf resource) := by
    refine sideOf_each nodup_resourcesOf _ fun hmissed => ?_
    rw [mem_resourcesOf, not_or] at hmissed
    have hminted : s.supply.mintedOf resource = 0 := getD_of_not_mem_keys hmissed.1
    have hburned : s.supply.burnedOf resource = 0 := getD_of_not_mem_keys hmissed.2
    rw [hminted, hburned, hzero]
  have hescrow : sideOf side (s.escrow.resources.map fun r =>
      (r, s.escrow.issuedOf r, s.escrow.claimedOf r)) resource =
        side (s.escrow.issuedOf resource, s.escrow.claimedOf resource) := by
    refine sideOf_each nodup_resourcesOf _ fun hmissed => ?_
    obtain ⟨hissued, hclaimed⟩ := EscrowDelta.sides_missed hmissed
    rw [hissued, hclaimed, hzero]
  unfold Session.weights
  rw [sideOf_append, sideOf_append, sideOf_append, map_append, sideOf_append, sideOf_movements,
    sideOf_movements, sideOf_filterMap, hsupply, hescrow]
  rfl

end HyperscaleVm.Kernel

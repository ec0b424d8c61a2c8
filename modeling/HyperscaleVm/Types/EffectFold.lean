import HyperscaleVm.Types.Effect

/-!
# What a fold of effects comes to (`types/src/effect.rs`, `insert_bounded`)

A fold into the empty set is decided target by target, and by what was inserted there alone.
-/

namespace HyperscaleVm
open List
open Std (ExtTreeMap ExtTreeSet)
open Library

namespace EffectSet

def modesOf (s : EffectSet) (target : EffectTarget) : ExtTreeSet Mode :=
  (s.byTarget[target]?.getD ⟨∅, MAX_SLOT_WIDTH⟩).modes

def joined (modes : ExtTreeSet Mode) (mode : Mode) : Option (ExtTreeSet Mode) :=
  match mode, reserved modes with
  | .reserve amount, some prior =>
    if prior + amount < AMOUNT_BOUND then
      some ((modes.erase (.reserve prior)).insert (.reserve (prior + amount)))
    else none
  | mode, _ => some (modes.insert mode)

theorem insertBounded_fst (s : EffectSet) (effect : Effect) (width : ℕ) :
    (s.insertBounded effect width).map Prod.fst =
      (joined (s.modesOf effect.target) effect.mode).map fun modes =>
        ⟨s.byTarget.insert effect.target ⟨modes, min (s.widthOf effect.target) width⟩⟩ := by
  have hwidth : (s.byTarget[effect.target]?.getD ⟨∅, MAX_SLOT_WIDTH⟩).width =
      s.widthOf effect.target := by
    unfold widthOf
    cases s.byTarget[effect.target]? <;> rfl
  unfold insertBounded joined
  dsimp only
  rw [hwidth, ← modesOf]
  cases effect.mode with
  | reserve amount =>
    cases reserved (s.modesOf effect.target) with
    | none => rfl
    | some prior =>
      dsimp only
      split <;> rfl
  | _ => rfl

variable {s s' f : EffectSet} {effect : Effect} {width : ℕ} {declared : Declared}

theorem modesOf_insert (s : EffectSet) (target other : EffectTarget) : modesOf
    ⟨s.byTarget.insert target declared⟩ other = if target = other then
      declared.modes else s.modesOf other := by
  unfold modesOf
  dsimp only
  rw [getElem?_insert_eq]
  split <;> rfl

theorem widthOf_insert (s : EffectSet) (target other : EffectTarget) : widthOf
    ⟨s.byTarget.insert target declared⟩ other = if target = other then
      declared.width else s.widthOf other := by
  unfold widthOf
  dsimp only
  rw [getElem?_insert_eq]
  split <;> rfl

def ReservesOnly (modes : ExtTreeSet Mode) (amount : Option ℕ) : Prop :=
  ∀ n, Mode.reserve n ∈ modes ↔ amount = some n

theorem ReservesOnly.reserved_eq {modes : ExtTreeSet Mode} {amount : Option ℕ}
    (h : ReservesOnly modes amount) : reserved modes = amount := by
  cases hfound : reserved modes with
  | some n => exact ((h n).mp (reserved_mem hfound)).symm
  | none =>
    cases amount with
    | none => rfl
    | some n =>
      have hmem := (h n).mpr rfl
      unfold reserved at hfound
      rw [findSome?_eq_none_iff] at hfound
      have hnone := hfound (.reserve n) (ExtTreeSet.mem_toList.mpr hmem)
      cases hnone

def reserveSum (prior : Option ℕ) : Mode → Option ℕ
  | .reserve amount => some (prior.getD 0 + amount)
  | _ => prior

theorem mem_joined {modes modes' : ExtTreeSet Mode} {mode : Mode} {prior : Option ℕ}
    (hprior : ReservesOnly modes prior) (h : joined modes mode = some modes') :
    ReservesOnly modes' (reserveSum prior mode) ∧
      ∀ other, (∀ n, other ≠ .reserve n) → (other ∈ modes' ↔ other ∈ modes ∨ mode = other) := by
  unfold joined at h
  rw [hprior.reserved_eq] at h
  split at h
  · next amount stood =>
    split at h
    · cases h
      refine ⟨fun n => ?_, fun other hother => ?_⟩
      · simp only [ExtTreeSet.mem_insert, ExtTreeSet.mem_erase, Std.compare_eq_iff_eq, hprior n,
          reserveSum, Option.getD_some, Option.some.injEq, Mode.reserve.injEq]
        grind
      · simp only [ExtTreeSet.mem_insert, ExtTreeSet.mem_erase, Std.compare_eq_iff_eq]
        grind
    · cases h
  · next hmode =>
    cases h
    refine ⟨fun n => ?_, fun other _ => ?_⟩
    · simp only [ExtTreeSet.mem_insert, Std.compare_eq_iff_eq, hprior n]
      cases mode with
      | reserve amount =>
        cases prior with
        | none => simp [reserveSum]
        | some stood => exact absurd rfl (hmode amount stood rfl)
      | _ => simp [reserveSum]
    · rw [ExtTreeSet.mem_insert, Std.compare_eq_iff_eq, or_comm]

theorem reservesOnly_insertBounded {moved : Bool}
    (h : s.insertBounded effect width = some (s', moved)) {target : EffectTarget} {prior : Option ℕ}
    (hprior : ReservesOnly (s.modesOf target) prior) : ReservesOnly (s'.modesOf target)
      (if effect.target = target then reserveSum prior effect.mode else prior) := by
  have hfst := insertBounded_fst s effect width
  rw [h] at hfst
  obtain ⟨modes, hjoined, rfl⟩ := Option.map_eq_some_iff.mp hfst.symm
  rw [modesOf_insert]
  split
  · next htarget =>
    subst htarget
    exact (mem_joined hprior hjoined).1
  · exact hprior

def SameModes (s f : EffectSet) : Prop :=
  ∀ target : EffectTarget, (s.byTarget[target]?).map Declared.modes =
    (f.byTarget[target]?).map Declared.modes

theorem SameModes.insert {s f s' : EffectSet} (h : s.SameModes f) {effect : Effect} {width : ℕ}
    (hinsert : (s.insertBounded effect width).map Prod.fst = some s') (width' : ℕ) :
    ∃ f', (f.insertBounded effect width').map Prod.fst = some f' ∧ s'.SameModes f' ∧
      ∀ target : EffectTarget, f'.byTarget[target]? = if effect.target = target then
        some ⟨f'.modesOf target, min (f.widthOf target) width'⟩ else f.byTarget[target]? := by
  have hmodes : s.modesOf effect.target = f.modesOf effect.target := by
    have hsame := h effect.target
    unfold modesOf
    cases hs : s.byTarget[effect.target]? <;> cases hf : f.byTarget[effect.target]? <;> simp_all
  rw [insertBounded_fst] at hinsert
  obtain ⟨modes, hjoined, rfl⟩ := Option.map_eq_some_iff.mp hinsert
  rw [hmodes] at hjoined
  refine ⟨_, by rw [insertBounded_fst, hjoined]; rfl, fun target => ?_, fun target => ?_⟩
  · dsimp only
    rw [Library.getElem?_insert_eq, Library.getElem?_insert_eq]
    split
    · rfl
    · exact h target
  · unfold modesOf
    dsimp only
    rw [Library.getElem?_insert_eq]
    split
    · rename_i htarget
      subst htarget
      rfl
    · rfl

theorem ext_of_sameModes {s f : EffectSet} (h : s.SameModes f)
    (hwidths : ∀ (target : EffectTarget) (declared : Declared), f.byTarget[target]? =
      some declared → declared.width = s.widthOf target) : f = s := by
  obtain ⟨byTarget⟩ := s
  obtain ⟨byTarget'⟩ := f
  congr 1
  refine Std.ExtTreeMap.ext_getElem? fun target => ?_
  have hsame := h target
  cases hfound : byTarget'[target]? with
  | none =>
    simp only [hfound, Option.map_none, Option.map_eq_none_iff] at hsame
    exact hsame.symm
  | some declared =>
    simp only [hfound, Option.map_some] at hsame
    obtain ⟨declared', hfound', hmodes⟩ := Option.map_eq_some_iff.mp hsame
    have hwidth := hwidths target declared hfound
    simp only [widthOf, hfound', Option.map_some, Option.getD_some] at hwidth
    rw [hfound']
    congr 1
    obtain ⟨modes, width⟩ := declared
    obtain ⟨modes', width'⟩ := declared'
    rw [Declared.mk.injEq]
    exact ⟨hmodes.symm, hwidth⟩

inductive EffectConflict where
  | reserveOverflow

def foldedReserve (s : EffectSet) (effect : Effect) : Except EffectConflict (Option (ℕ × ℕ)) :=
  match effect.mode with
  | .reserve amount =>
    match (s.byTarget[effect.target]?).bind fun declared => reserved declared.modes with
    | some prior =>
      if prior + amount < AMOUNT_BOUND then .ok (some (prior, prior + amount))
      else .error .reserveOverflow
    | none => .ok none
  | _ => .ok none

/-- `insert_bounded` with the set it leaves behind, refused or not. -/
def insertInPlace (s : EffectSet) (effect : Effect) (width : ℕ) :
    EffectSet × Except EffectConflict Bool :=
  match s.foldedReserve effect with
  | .error conflict => (s, .error conflict)
  | .ok folded =>
    let declared := s.byTarget[effect.target]?.getD ⟨∅, MAX_SLOT_WIDTH⟩
    let put (modes : ExtTreeSet Mode) : EffectSet :=
      ⟨s.byTarget.insert effect.target ⟨modes, min declared.width width⟩⟩
    match folded with
    | some (prior, total) =>
      (put ((declared.modes.erase (.reserve prior)).insert (.reserve total)), .ok true)
    | none => (put (declared.modes.insert effect.mode),
        .ok (!declared.modes.contains effect.mode || decide (width < declared.width)))

theorem insertInPlace_eq (s : EffectSet) (effect : Effect) (width : ℕ) :
    s.insertInPlace effect width = match s.insertBounded effect width with
      | some (s', moved) => (s', .ok moved) | none => (s, .error .reserveOverflow) := by
  have hreserved : ((s.byTarget[effect.target]?).bind fun declared => reserved declared.modes) =
      reserved (s.byTarget[effect.target]?.getD ⟨∅, MAX_SLOT_WIDTH⟩).modes := by
    cases s.byTarget[effect.target]? <;> rfl
  unfold insertInPlace foldedReserve insertBounded
  rw [hreserved]
  cases effect.mode with
  | reserve amount =>
    dsimp only
    cases reserved (s.byTarget[effect.target]?.getD ⟨∅, MAX_SLOT_WIDTH⟩).modes with
    | none => rfl
    | some prior =>
      dsimp only
      by_cases h : prior + amount < AMOUNT_BOUND
      · rw [if_pos h, if_pos h]
      · rw [if_neg h, if_neg h]
  | _ => rfl

def ofEffects (effects : List (Effect × ℕ)) : Option EffectSet :=
  effects.foldlM (fun s e => (s.insertBounded e.1 e.2).map Prod.fst) .new

def reserves (effects : List (Effect × ℕ)) (target : EffectTarget) : List ℕ :=
  effects.filterMap fun e =>
    match e.1.mode with
    | .reserve amount => if e.1.target = target then some amount else none
    | _ => none

structure Summary (effects : List (Effect × ℕ)) (s : EffectSet) : Prop where
  present : ∀ target : EffectTarget, (s.byTarget[target]?).isSome ↔ ∃ e ∈ effects,
    e.1.target = target
  reserve : ∀ target n, Mode.reserve n ∈ s.modesOf target ↔
    reserves effects target ≠ [] ∧ (reserves effects target).sum = n
  modes : ∀ target mode, (∀ n, mode ≠ .reserve n) →
    (mode ∈ s.modesOf target ↔ ∃ e ∈ effects, e.1 = ⟨target, mode⟩)
  width : ∀ target, IsLeast {w | w = MAX_SLOT_WIDTH ∨ ∃ e ∈ effects, e.1.target = target ∧ e.2 = w}
    (s.widthOf target)

variable {effects : List (Effect × ℕ)} {e : Effect × ℕ}

theorem Summary.eq (h : Summary effects s) (h' : Summary effects s') : s' = s := by
  refine ext_of_sameModes (fun target => ?_) fun target declared hfound => ?_
  · have hpresent := (h.present target).trans (h'.present target).symm
    have hmodes : s.modesOf target = s'.modesOf target := by
      refine ExtTreeSet.ext_mem fun mode => ?_
      cases mode with
      | reserve n => exact (h.reserve target n).trans (h'.reserve target n).symm
      | _ => exact (h.modes target _ (by simp)).trans (h'.modes target _ (by simp)).symm
    unfold modesOf at hmodes
    cases hs : s.byTarget[target]? <;> cases hs' : s'.byTarget[target]? <;>
      simp_all
  · have hwidth := (h'.width target).unique (h.width target)
    rwa [widthOf, hfound] at hwidth

theorem reserves_append (effects : List (Effect × ℕ)) (e : Effect × ℕ) (target : EffectTarget) :
    reserves (effects ++ [e]) target = reserves effects target ++ match e.1.mode with
      | .reserve amount => if e.1.target = target then [amount] else [] | _ => [] := by
  rw [reserves, reserves, filterMap_append]
  congr 1
  cases hmode : e.1.mode with
  | reserve amount => by_cases h : e.1.target = target <;> simp [hmode, h]
  | _ => simp [hmode]

theorem Summary.reservesOnly (h : Summary effects s) (target : EffectTarget) :
    ReservesOnly (s.modesOf target)
      (if reserves effects target = [] then none else some (reserves effects target).sum) := by
  intro n
  rw [h.reserve]
  split <;> simp [*]

theorem exists_snoc {P : Effect × ℕ → Prop} : (∃ x ∈ effects ++ [e], P x) ↔
    (∃ x ∈ effects, P x) ∨ P e := by
  simp only [mem_append, mem_singleton, or_and_right, exists_or, exists_eq_left]

theorem Summary.insert (h : Summary effects s)
    (hinsert : (s.insertBounded e.1 e.2).map Prod.fst = some s') : Summary (effects ++ [e]) s' := by
  rw [insertBounded_fst] at hinsert
  obtain ⟨modes, hjoined, rfl⟩ := Option.map_eq_some_iff.mp hinsert
  obtain ⟨hreserve, hmodes⟩ := mem_joined (h.reservesOnly e.1.target) hjoined
  refine ⟨fun target => ?_, fun target n => ?_, fun target mode hmode => ?_, fun target => ?_⟩
  · rw [exists_snoc, ← h.present, getElem?_insert_eq]
    split <;> simp [*]
  · rw [modesOf_insert, reserves_append]
    split
    · next htarget =>
      subst htarget
      rw [hreserve n]
      cases e.1.mode <;> by_cases hnil :
        reserves effects e.1.target = [] <;> simp [reserveSum, hnil]
    · cases e.1.mode <;> simp [h.reserve, *]
  · rw [modesOf_insert, exists_snoc, ← h.modes target mode hmode]
    split
    · next htarget =>
      subst htarget
      rw [hmodes mode hmode]
      exact or_congr_right ⟨fun heq => heq ▸ rfl, fun heq => congrArg Effect.mode heq⟩
    · next htarget => exact (or_iff_left fun heq => htarget (congrArg Effect.target heq)).symm
  · rw [widthOf_insert]
    simp only [exists_snoc]
    split
    · next htarget =>
      subst htarget
      rw [min_comm]
      refine (congrArg (IsLeast · _) ?_).mp ((h.width e.1.target).insert e.2)
      ext w
      simp only [Set.mem_insert_iff, Set.mem_ofPred_eq, true_and, eq_comm (a := e.2)]
      rw [or_comm, or_assoc]
    · next htarget => simpa only [htarget, false_and, or_false] using h.width target

theorem summary_ofEffects (h : ofEffects effects = some s) : Summary effects s := by
  induction effects using List.reverseRecOn generalizing s with
  | nil =>
    cases h
    refine ⟨fun target => ?_, fun target n => ?_, fun target mode _ => ?_, fun target => ?_⟩
    · simp [new]
    · simp [new, modesOf, reserves]
    · simp [new, modesOf]
    · simp [new, widthOf]
  | append_singleton effects e ih =>
    rw [ofEffects, foldlM_append] at h
    obtain ⟨s₀, hbefore, h⟩ := Option.bind_eq_some_iff.mp h
    refine (ih hbefore).insert ?_
    simpa using h

theorem Summary.insert_none (h : Summary effects s)
    (hamount : ∀ n, e.1.mode = .reserve n → n < AMOUNT_BOUND) :
    (s.insertBounded e.1 e.2).map Prod.fst = none ↔
      ∃ n, e.1.mode = .reserve n ∧ AMOUNT_BOUND ≤ (reserves effects e.1.target).sum + n := by
  rw [insertBounded_fst, Option.map_eq_none_iff]
  unfold joined
  rw [(h.reservesOnly e.1.target).reserved_eq]
  cases hmode : e.1.mode with
  | reserve amount =>
    by_cases hnil : reserves effects e.1.target = []
    · simp [hnil, hamount amount hmode]
    · simp [hnil]
  | _ => simp

theorem ofEffects_none (hamounts : ∀ e ∈ effects, ∀ n, e.1.mode = .reserve n → n < AMOUNT_BOUND) :
    ofEffects effects = none ↔ ∃ target, AMOUNT_BOUND ≤ (reserves effects target).sum := by
  induction effects using List.reverseRecOn with
  | nil => simp [ofEffects, reserves, AMOUNT_BOUND]
  | append_singleton effects e ih =>
    have ih := ih fun e he => hamounts e (mem_append_left _ he)
    have hstep : ofEffects (effects ++ [e]) =
        (ofEffects effects).bind fun s => (s.insertBounded e.1 e.2).map Prod.fst := by
      rw [ofEffects, foldlM_append]
      simp [ofEffects]
    simp only [hstep, reserves_append, sum_append]
    cases hfold : ofEffects effects with
    | none =>
      obtain ⟨target, hover⟩ := ih.mp hfold
      exact iff_of_true rfl ⟨target, hover.trans (Nat.le_add_right _ _)⟩
    | some s =>
      have hunder : ∀ target, (reserves effects target).sum < AMOUNT_BOUND := by
        simpa [hfold] using ih
      rw [Option.bind_some, (summary_ofEffects hfold).insert_none (hamounts e (by simp))]
      constructor
      · rintro ⟨n, hmode, hover⟩
        refine ⟨e.1.target, ?_⟩
        simpa [hmode] using hover
      · rintro ⟨target, hover⟩
        have hlt := hunder target
        cases hmode : e.1.mode with
        | reserve amount =>
          by_cases htarget : e.1.target = target
          · subst htarget
            exact ⟨amount, rfl, by simpa [hmode] using hover⟩
          · simp [hmode, htarget] at hover
            omega
        | _ =>
          simp [hmode] at hover
          omega

theorem Summary.perm {effects' : List (Effect × ℕ)} (hperm : effects.Perm effects')
    (h : Summary effects s) : Summary effects' s := by
  have hreserves : ∀ target, (reserves effects target).Perm (reserves effects' target) :=
    fun target => hperm.filterMap _
  obtain ⟨hpresent, hreserve, hmodes, hwidth⟩ := h
  simp only [hperm.mem_iff] at hpresent hmodes hwidth
  refine ⟨hpresent, fun target n => ?_, hmodes, hwidth⟩
  rw [hreserve, (hreserves target).sum_eq, ← length_pos_iff, (hreserves target).length_eq,
    length_pos_iff]

/-- A fold of effects is the same in every order, refuses exactly where a target's reservations
total past an amount, and leaves a set it refuses as it was. -/
theorem folds_are_order_free {effects : List (Effect × ℕ)}
    (hamounts : ∀ e ∈ effects, ∀ n, e.1.mode = .reserve n → n < AMOUNT_BOUND) :
    (∀ effects', effects.Perm effects' → ofEffects effects' = ofEffects effects) ∧
      (ofEffects effects = none ↔ ∃ target, AMOUNT_BOUND ≤ (reserves effects target).sum) ∧
      (∀ s, ofEffects effects = some s → Summary effects s) ∧
      ∀ s effect width conflict, (insertInPlace s effect width).2 = .error conflict →
        (insertInPlace s effect width).1 = s := by
  refine ⟨fun effects' hperm => ?_, ofEffects_none hamounts, fun s => summary_ofEffects, ?_⟩
  · have hnone : ofEffects effects' = none ↔ ofEffects effects = none := by
      rw [ofEffects_none hamounts, ofEffects_none fun e he => hamounts e (hperm.mem_iff.mpr he)]
      exact exists_congr fun target => by rw [reserves, reserves, (hperm.filterMap _).sum_eq]
    cases h : ofEffects effects with
    | none => exact hnone.mpr h
    | some s =>
      cases h' : ofEffects effects' with
      | none => exact absurd (hnone.mp h') (by rw [h]; nofun)
      | some s' => rw [(summary_ofEffects h).eq ((summary_ofEffects h').perm hperm.symm)]
  · intro s effect width conflict h
    rw [insertInPlace_eq] at h ⊢
    split at h
    · cases h
    · rfl

theorem folds_of_reads_and_reserves_are_order_free :
    let target : EffectTarget := .entry ⟨0, .component⟩ 0 0
    ofEffects [(⟨target, .reserve 2⟩, 8), (⟨target, .read⟩, 9)] =
      ofEffects [(⟨target, .read⟩, 9), (⟨target, .reserve 2⟩, 8)] := by
  intro target
  exact (folds_are_order_free (by simp [AMOUNT_BOUND])).1 _ (.swap _ _ [])

end EffectSet

end HyperscaleVm

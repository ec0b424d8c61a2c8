import HyperscaleVm.Types.Mode

/-!
# Declared effects and the folding set of them (`types/src/effect.rs`)
-/

namespace HyperscaleVm
open Std List

/-- One past the largest amount (`u128`). -/
def AMOUNT_BOUND : ℕ := 2 ^ 128

/-- The byte bound of a slot that states no width (`types/src/writes.rs`). -/
def MAX_SLOT_WIDTH : ℕ := 16 * 1024

structure Effect where
  target : EffectTarget
  mode : Mode
  deriving DecidableEq

structure Declared where
  modes : ExtTreeSet Mode
  width : ℕ
  deriving DecidableEq

structure EffectSet where
  byTarget : ExtTreeMap EffectTarget Declared
  deriving DecidableEq

namespace EffectSet

def new : EffectSet := ⟨∅⟩

def reserved (modes : ExtTreeSet Mode) : Option ℕ :=
  modes.toList.findSome? fun mode =>
    match mode with
    | .reserve amount => some amount
    | _ => none

/-- `insert_bounded`: `none` when two reservations sum past an amount, else the
set and whether it moved. -/
def insertBounded (s : EffectSet) (effect : Effect) (width : ℕ) : Option (EffectSet × Bool) :=
  let declared := s.byTarget[effect.target]?.getD ⟨∅, MAX_SLOT_WIDTH⟩
  let narrowed := decide (width < declared.width)
  let put (modes : ExtTreeSet Mode) : EffectSet :=
    ⟨s.byTarget.insert effect.target ⟨modes, min declared.width width⟩⟩
  match effect.mode, reserved declared.modes with
  | .reserve amount, some prior =>
    if prior + amount < AMOUNT_BOUND then
      some (put ((declared.modes.erase (.reserve prior)).insert (.reserve (prior + amount))), true)
    else none
  | mode, _ => some (put (declared.modes.insert mode), !declared.modes.contains mode || narrowed)

def widthOf (s : EffectSet) (target : EffectTarget) : ℕ :=
  (s.byTarget[target]?.map Declared.width).getD MAX_SLOT_WIDTH

def iter (s : EffectSet) : List Effect :=
  s.byTarget.toList.flatMap fun (target, declared) =>
    declared.modes.toList.map fun mode => ⟨target, mode⟩

def contains (s : EffectSet) (effect : Effect) : Bool :=
  match s.byTarget[effect.target]? with
  | some declared => declared.modes.contains effect.mode
  | none => false

def selfConflicting (s : EffectSet) : Option SubstateKey :=
  s.byTarget.toList.findSome? fun (target, declared) =>
    match target with
    | .point key =>
      let claims (c : ConflictClass) :=
        declared.modes.toList.any fun mode => mode.kind.conflictClass == c
      if claims .write && claims .movement then some key else none
    | _ => none

variable {s : EffectSet} {effect : Effect}

theorem mem_iter : effect ∈ s.iter ↔ s.contains effect = true := by
  obtain ⟨target, mode⟩ := effect
  simp only [iter, contains, mem_flatMap, mem_map, Prod.exists,
    ExtTreeMap.mem_toList_iff_getElem?_eq_some, Effect.mk.injEq, ExtTreeSet.mem_toList]
  constructor
  · rintro ⟨t, d, ht, m, hm, rfl, rfl⟩
    rw [ht]
    exact hm
  · intro h
    split at h
    · rename_i d hd
      exact ⟨target, d, hd, mode, h, rfl, rfl⟩
    · cases h

def holdsKind (modes : ExtTreeSet Mode) (kind : ModeKind) : Prop :=
  ∃ mode : Mode, mode ∈ modes ∧ mode.kind = kind

def declares (s : EffectSet) (target : EffectTarget) (kind : ModeKind) : Prop :=
  ∃ declared, s.byTarget[target]? = some declared ∧ holdsKind declared.modes kind

theorem declares_of_contains (h : s.contains effect = true) :
    s.declares effect.target effect.mode.kind := by
  unfold contains at h
  cases hfound : s.byTarget[effect.target]? with
  | none => simp [hfound] at h
  | some declared =>
    refine ⟨declared, hfound, effect.mode, ?_, rfl⟩
    simpa [hfound] using h

variable {modes : ExtTreeSet Mode} {amount : ℕ}

theorem reserved_mem (h : reserved modes = some amount) : Mode.reserve amount ∈ modes := by
  obtain ⟨mode, hm, h⟩ := exists_of_findSome?_eq_some h
  split at h
  · cases h
    exact ExtTreeSet.mem_toList.mp hm
  · cases h

variable {kind : ModeKind}

theorem holdsKind_insert {mode : Mode} :
    holdsKind (modes.insert mode) kind ↔ holdsKind modes kind ∨ kind = mode.kind := by
  simp only [holdsKind, ExtTreeSet.mem_insert, Std.compare_eq_iff_eq]
  constructor
  · rintro ⟨m, rfl | hm, rfl⟩
    · exact .inr rfl
    · exact .inl ⟨m, hm, rfl⟩
  · rintro (⟨m, hm, rfl⟩ | rfl)
    · exact ⟨m, .inr hm, rfl⟩
    · exact ⟨mode, .inl rfl, rfl⟩

theorem holdsKind_fold {prior : ℕ} (h : Mode.reserve prior ∈ modes) :
    holdsKind ((modes.erase (.reserve prior)).insert (.reserve amount)) kind ↔
      holdsKind modes kind := by
  rw [holdsKind_insert]
  simp only [holdsKind, ExtTreeSet.mem_erase, ne_eq, Std.compare_eq_iff_eq]
  constructor
  · rintro (⟨m, ⟨-, hm⟩, rfl⟩ | rfl)
    · exact ⟨m, hm, rfl⟩
    · exact ⟨_, h, rfl⟩
  · rintro ⟨m, hm, rfl⟩
    by_cases hp : Mode.reserve prior = m
    · subst hp
      exact .inr rfl
    · exact .inl ⟨m, ⟨hp, hm⟩, rfl⟩

variable {s' : EffectSet} {width : ℕ} {moved : Bool}

/-- What `insertBounded` leaves: the target's modes hold the kinds they held and the new
one, and no other target moved. -/
theorem insertBounded_cases (h : s.insertBounded effect width = some (s', moved)) :
    ∃ modes w, s'.byTarget = s.byTarget.insert effect.target ⟨modes, w⟩ ∧
      ∀ kind, holdsKind modes kind ↔
        holdsKind (s.byTarget[effect.target]?.getD ⟨∅, MAX_SLOT_WIDTH⟩).modes kind ∨
          kind = effect.mode.kind := by
  unfold insertBounded at h
  dsimp only at h
  split at h
  · rename_i amount prior hmode hprior
    split at h
    · cases h
      refine ⟨_, _, rfl, fun kind => ?_⟩
      have hp := reserved_mem hprior
      rw [holdsKind_fold hp, hmode]
      refine ⟨.inl, ?_⟩
      rintro (hk | rfl)
      · exact hk
      · exact ⟨_, hp, rfl⟩
    · cases h
  · cases h
    exact ⟨_, _, rfl, fun kind => holdsKind_insert⟩

theorem declares_insertBounded
    (h : s.insertBounded effect width = some (s', moved)) {target : EffectTarget} :
    s'.declares target kind ↔
      s.declares target kind ∨ (target = effect.target ∧ kind = effect.mode.kind) := by
  obtain ⟨modes, w, hs, hk⟩ := insertBounded_cases h
  unfold declares
  rw [hs, Library.getElem?_insert_eq]
  by_cases ht : effect.target = target
  · subst ht
    simp only [if_true, Option.some.injEq, exists_eq_left', true_and, hk]
    cases hd : s.byTarget[effect.target]? with
    | none => simp [holdsKind]
    | some declared => simp
  · simp [ht, Ne.symm ht]

end EffectSet

end HyperscaleVm

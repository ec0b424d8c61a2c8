import HyperscaleVm.Effects.Admission.Authority
import HyperscaleVm.Effects.Admission.Halt

/-!
# No movement past its entries (`effects/src/admission/inject.rs`, `effects/src/resource.rs`)

The address of a resource whose entries can stop a movement carries the class that
says so, so the record behind it cannot be withheld; and the one rule a decoder
admits that nothing satisfies is refused outright.
-/

namespace HyperscaleVm.Effects
open List Bool

namespace Rule

variable {L : Type}

mutual

theorem holds_of_caps {rule : Rule L} {depth : ℕ} (h : rule.withinCaps depth = true)
    (hnever : rule ≠ .never) : rule.holds (fun _ => true) = true := by
  cases rule with
  | require leaf => rfl
  | countOf count rules =>
    rw [withinCaps, and_eq_true, and_eq_true] at h
    obtain ⟨⟨-, hformed⟩, hcaps⟩ := h
    rw [holds, decide_eq_true_eq]
    cases rules with
    | nil =>
      have hle : count ≤ 1 := of_decide_eq_true hformed
      have hne : count ≠ 1 := fun h => hnever (h ▸ rfl)
      rw [holdsCount]
      omega
    | cons r rs =>
      simp only [wellFormed, and_eq_true, not_eq_true', decide_eq_true_eq] at hformed
      rw [holdsCount_of_caps hcaps hformed.1.1.1]
      exact hformed.1.2

theorem holdsCount_of_caps {rules : List (Rule L)} {depth : ℕ}
    (h : withinCapsAll depth rules = true) (hconstant : rules.any isConstant = false) :
    holdsCount (fun _ => true) rules = rules.length := by
  cases rules with
  | nil => rfl
  | cons rule rules =>
    rw [withinCapsAll, and_eq_true] at h
    rw [any_cons, or_eq_false_iff] at hconstant
    have hnever : rule ≠ .never := by
      rintro rfl
      cases hconstant.1
    rw [holdsCount, holds_of_caps h.1 hnever, holdsCount_of_caps h.2 hconstant.2, if_pos rfl,
      length_cons, Nat.add_comm]

end

end Rule

namespace Admission
open Library

variable {H : Hasher}

def Earned.Asked (H : Hasher) (earned : Earned) (injected : List Injected) : Prop :=
  ∀ rules sealed, GrantsOf H earned.resource rules → rules[earned.behaviour]? = some sealed →
    ∃ rule, sealed.decode = some rule ∧ rule ≠ .never ∧
      ⟨moverRule H earned.owner rule, .entry rule, earned.resource, earned.behaviour⟩ ∈ injected

variable {earned : Earned} {injected : List Injected}

theorem Earned.Asked.mono {injected' : List Injected}
    (h : earned.Asked H injected) (hsub : ∀ i ∈ injected, i ∈ injected') :
    earned.Asked H injected' := by
  intro rules sealed hgrants hsealed
  obtain ⟨rule, hdecode, hnever, hmem⟩ := h rules sealed hgrants hsealed
  exact ⟨rule, hdecode, hnever, hsub _ hmem⟩

theorem fenceHalt_injected (earned : Earned) (rules : ResourceGrants) (state : Movements) :
    ∀ i ∈ state.injected, i ∈ (fenceHalt H earned rules state).injected := by
  intro i hi
  unfold fenceHalt
  split
  · exact mem_append_left _ hi
  · exact hi

variable {records : List ResourceMeta} {vaultDeposit : Bool} {node : ℕ}

theorem injectMovement_asked (hH : H.Injective) {state state' : Movements}
    (hearned : earned.behaviour.restrictsMovement = true)
    (h : injectMovement H (fromPresented H records) vaultDeposit node state earned = .ok state') :
    (∀ i ∈ state.injected, i ∈ state'.injected) ∧ earned.Asked H state'.injected := by
  unfold injectMovement at h
  split at h
  · split at h
    · cases h
    · rename_i hclass
      cases h
      exact ⟨fun _ => id, fun rules sealed hgrants hsealed =>
        absurd (hgrants.restricted hearned hsealed) hclass⟩
  · rename_i rules hrules
    dsimp only at h
    have hfence := fenceHalt_injected (H := H) earned rules state
    split at h
    · rename_i hnone
      cases h
      refine ⟨hfence, fun rules' sealed hgrants hsealed => ?_⟩
      rw [hgrants.unique hH (grantsOf_presented hrules), hnone] at hsealed
      cases hsealed
    · rename_i sealed hsealed
      obtain ⟨rule, hdecode, hnever, rfl⟩ := injectEntry_ok h
      refine ⟨fun i hi => mem_append_left _ (hfence i hi),
        fun rules' sealed' hgrants hsealed' => ?_⟩
      rw [hgrants.unique hH (grantsOf_presented hrules), hsealed] at hsealed'
      cases hsealed'
      exact ⟨rule, hdecode, hnever, mem_append_right _ (mem_singleton_self _)⟩

theorem asked_of_movements (hH : H.Injective) {frame moved : Declaration}
    (h : injectMovementRules H (fromPresented H records) frame vaultDeposit node =
      .ok (moved, injected)) : ∀ earned ∈ wantedMovements frame, earned.Asked H injected := by
  obtain ⟨state, hfold, h⟩ := bind_ok.mp h
  cases h
  refine (Library.foldlM_marks (R := fun s t : Movements => ∀ i ∈ s.injected, i ∈ t.injected)
    (Q := fun (e : Earned) (s : Movements) => e.Asked H s.injected)
    (fun _ _ => id) (fun _ _ _ hst htu i hi => htu i (hst i hi)) (fun _ _ _ hst hs => hs.mono hst)
    (fun s t e he hstep => injectMovement_asked hH ?_ hstep) hfold).2
  rcases earned_behaviour he with hb | hb
  all_goals
    rw [hb]
    rfl

def AdmittedNode.CarriesEntries {S : Setting H} (n : AdmittedNode S) (owner : Address)
    (resource : ResourceAddr) (rules : ResourceGrants) (moves : HyperscaleVm.Moves) : Prop :=
  (∀ behaviour ∈ GrantedBehaviour.earnedBy moves, ∀ sealed, rules[behaviour]? = some sealed →
    ∃ rule, sealed.decode = some rule ∧ (∃ met, rule.holds met = true) ∧
      moverRule H owner rule ∈ n.judged.frame.required) ∧
  (rules[GrantedBehaviour.halt]?.isSome = true →
    .require (.presence (.point (haltFlag H owner resource.1)) .absent) ∈ n.judged.frame.required)

theorem AdmittedNode.carriesEntries (hH : H.Injective) {S : Setting H} (n : AdmittedNode S)
    {access : DeclaredAccess} {resource : ResourceAddr} {rules : ResourceGrants}
    {moves : HyperscaleVm.Moves}
    (haccess : access ∈ n.judged.evaluated.ordered) (hreach : access.reach = none)
    (hholds : access.holds = some resource) (hmoves : access.effect.mode.moves = some moves)
    (hgrants : GrantsOf H resource rules) :
    n.CarriesEntries access.effect.target.owner resource rules moves := by
  refine ⟨fun behaviour hb sealed hsealed => ?_, fun hhalt => ?_⟩
  · have hearned : (⟨access.effect.target.owner, resource, behaviour⟩ : Earned) ∈
        wantedMovements n.parts.fenced :=
      mem_wantedMovements.mpr ⟨access, n.parts.fencedFrom.kept access haccess,
        mem_earnedOf.mpr ⟨hreach, rfl, hholds, moves, hmoves, hb⟩⟩
    obtain ⟨rule, hdecode, hnever, hin⟩ :=
      asked_of_movements hH n.parts.movementsFrom _ hearned rules sealed hgrants hsealed
    have hcaps : rule.withinCaps 0 = true := by
      cases sealed with
      | encoded stored =>
        simp only [RuleBytes.decode] at hdecode
        split at hdecode
        · rename_i hcaps
          cases hdecode
          exact hcaps
        · cases hdecode
      | garbled bytes => cases hdecode
    exact ⟨rule, hdecode, ⟨_, Rule.holds_of_caps hcaps hnever⟩,
      n.parts.required _ (n.injected_of_movement hin)⟩
  · have hmover : n.Moves access.effect.target.owner resource :=
      ⟨access, haccess, hreach, hholds, rfl, by rw [hmoves]; rfl⟩
    exact n.parts.required _ (n.unhalted_of_moves hH hmover ⟨rules, hgrants, hhalt⟩)

/-- In every accepted tree, whatever records it presents: an access that moves a resource under no
reach carries the entries the resource's address commits to. A tree with a node that would carry an
entry nothing satisfies is not accepted. -/
theorem movements_carry_their_entries (hH : H.Injective) {N : IntentHasher} {tree : IntentTree}
    {identity : ℕ} {chain : ChainRecords} {ruleOf : List ℕ → Option StoredRule} {a : Admitted}
    (h : admitTree H N tree identity chain ruleOf = .ok a) :
    ∃ t : AdmittedTree H N tree identity chain ruleOf a,
      (∃ nodes : List (AdmittedNode t.setting), t.walk.walked.Traces nodes) ∧
      ∀ nodes : List (AdmittedNode t.setting), t.walk.walked.Traces nodes →
        ∀ n ∈ nodes, ∀ access ∈ n.judged.evaluated.ordered, ∀ resource rules moves,
          access.reach = none → access.holds = some resource →
          access.effect.mode.moves = some moves → GrantsOf H resource rules →
          n.CarriesEntries access.effect.target.owner resource rules moves := by
  obtain ⟨t⟩ := admitTree_ok h
  exact ⟨t, lowerAll_traces t.walk.walkedFrom, fun nodes _ n _ access haccess resource rules moves
    hreach hholds hmoves hgrants => n.carriesEntries hH haccess hreach hholds hmoves hgrants⟩

end Admission

end HyperscaleVm.Effects

import HyperscaleVm.Effects.Admission.Frame

/-!
# Where an injected requirement comes from (`effects/src/admission/inject.rs`)

A resource's address commits to its grants, so an entry is the resource's own wherever it
was read.
-/

namespace HyperscaleVm.Effects.Admission
open Publish List Library

def GrantsOf (H : Hasher) (resource : ResourceAddr) (rules : ResourceGrants) : Prop :=
  ∃ issuer kind material, resource = grantingResourceAddress H issuer kind rules material

variable {H : Hasher} {rules : ResourceGrants} {rules' : ResourceGrants}

theorem grantingResourceAddress_injective (hH : H.Injective)
    {issuer issuer' : Address} {kind kind' : ResourceKind}
    {material material' : List Value} (h : grantingResourceAddress H issuer kind rules material =
      grantingResourceAddress H issuer' kind' rules' material') :
    issuer = issuer' ∧ kind = kind' ∧ rules = rules' ∧ material = material' := by
  have hbody := congrArg (fun r : ResourceAddr => r.1.body) h
  exact hH.resource hbody

variable {resource : ResourceAddr}

theorem GrantsOf.unique (hH : H.Injective) (h : GrantsOf H resource rules)
    (h' : GrantsOf H resource rules') : rules = rules' := by
  obtain ⟨issuer, kind, material, heq⟩ := h
  obtain ⟨issuer', kind', material', heq'⟩ := h'
  exact (grantingResourceAddress_injective hH (heq.symm.trans heq')).2.2.1

theorem grantsOf_presented {records : List ResourceMeta}
    (h : (fromPresented H records)[resource]? = some rules) :
    GrantsOf H resource rules := by
  unfold fromPresented at h
  have hempty : ∀ r g, (∅ : PresentedGrants)[r]? = some g → GrantsOf H r g := by simp
  generalize (∅ : PresentedGrants) = granted at h hempty
  induction records generalizing granted with
  | nil => exact hempty _ _ h
  | cons record records ih =>
    refine ih _ h fun r g hg => ?_
    rw [Std.ExtTreeMap.getElem?_insertIfNew] at hg
    split at hg
    · rename_i hnew
      cases hg
      rw [Std.LawfulEqCmp.compare_eq_iff_eq] at hnew
      exact ⟨_, _, _, hnew.1.symm⟩
    · exact hempty r g hg

variable {node : ℕ}

theorem injectedEntry_ok {entry : Option RuleBytes}
    {behaviour : GrantedBehaviour} {speakingFor : Option Claim} {o : Option Injected}
    (h : injectedEntry entry resource behaviour speakingFor node = .ok o) :
    ∃ bytes, entry = some bytes ∧ ((o = none ∧ behaviour.demanded bytes speakingFor = some none) ∨
        ∃ judged rule, o = some ⟨judged, .entry rule, resource, behaviour⟩ ∧
          behaviour.demanded bytes speakingFor = some (some rule) ∧
          judgedClaims rule = some judged) := by
  unfold injectedEntry at h
  split at h
  · cases h
  rename_i bytes
  refine ⟨bytes, rfl, ?_⟩
  split at h
  · cases h
  · rename_i hd
    cases h
    exact .inl ⟨rfl, hd⟩
  · rename_i rule hd
    split at h
    · cases h
    · rename_i judged hjudged
      cases h
      exact .inr ⟨judged, rule, rfl, hd, hjudged⟩

variable {frame : Declaration}

theorem mem_wantedReaches {reach : Reach} :
    reach ∈ wantedReaches frame ↔ ∃ a ∈ frame.ordered, a.reach = some reach := by
  simp [wantedReaches, mem_foldl_keepNew]

variable {earned : Earned}

theorem mem_wantedMovements :
    earned ∈ wantedMovements frame ↔ ∃ a ∈ frame.ordered, earned ∈ earnedOf a := by
  simp [wantedMovements, mem_foldl_keepNew]

theorem mem_earnedOf {a : DeclaredAccess} :
    earned ∈ earnedOf a ↔ a.reach = none ∧ a.effect.target.owner = earned.owner ∧
      a.holds = some earned.resource ∧ ∃ moves, a.effect.mode.moves = some moves ∧
        earned.behaviour ∈ GrantedBehaviour.earnedBy moves := by
  obtain ⟨owner, resource, behaviour⟩ := earned
  unfold earnedOf
  split
  · rename_i resource' moves hreach hholds hmoves
    simp only [List.mem_map, Earned.mk.injEq, hreach, hholds, hmoves, Option.some.injEq]
    constructor
    · rintro ⟨b, hb, rfl, rfl, rfl⟩
      exact ⟨trivial, rfl, rfl, moves, rfl, hb⟩
    · rintro ⟨-, rfl, rfl, m, rfl, hb⟩
      exact ⟨behaviour, hb, rfl, rfl, rfl⟩
  · rename_i hnone
    simp only [not_mem_nil, false_iff]
    rintro ⟨hreach, -, hholds, moves, hmoves, -⟩
    exact hnone _ _ hreach hholds hmoves

variable {grants : PresentedGrants} {injected : List Injected}

theorem reach_of_injected {reaching : Address}
    (h : injectReachRules grants frame reaching node = .ok injected) {i : Injected}
    (hi : i ∈ injected) : ∃ a ∈ frame.ordered, a.reach = some ⟨i.behaviour, i.resource⟩ := by
  obtain ⟨entries, hmap, h⟩ := bind_ok.mp h
  cases h
  obtain ⟨o, ho, hsome⟩ := mem_filterMap.mp hi
  obtain ⟨reach, hreach, hentry⟩ := exists_mem_left (mapM_ok.mp hmap) ho
  obtain ⟨a, ha, hareach⟩ := mem_wantedReaches.mp hreach
  obtain ⟨bytes, -, ⟨rfl, -⟩ | ⟨judged, rule, rfl, -⟩⟩ := injectedEntry_ok hentry
  · cases hsome
  · cases hsome
    exact ⟨a, ha, hareach⟩

def OfMovement (i : Injected) : Prop :=
  i.asks = .unhalted ∨ i.behaviour = .withdraw ∨ i.behaviour = .deposit

theorem earned_behaviour (h : earned ∈ wantedMovements frame) :
    earned.behaviour = .withdraw ∨ earned.behaviour = .deposit := by
  obtain ⟨a, -, ha⟩ := mem_wantedMovements.mp h
  obtain ⟨-, -, -, moves, -, hb⟩ := mem_earnedOf.mp ha
  cases moves with
  | «in» => exact .inr (mem_singleton.mp hb)
  | out => exact .inl (mem_singleton.mp hb)
  | both => simpa [GrantedBehaviour.earnedBy] using hb

variable {vaultDeposit : Bool}

theorem injectMovement_injected {state state' : Movements}
    (hearned : earned.behaviour = .withdraw ∨ earned.behaviour = .deposit)
    (h : injectMovement H grants vaultDeposit node state earned = .ok state') :
    ∀ i ∈ state'.injected, i ∈ state.injected ∨ OfMovement i := by
  have hfence : ∀ rules, ∀ i ∈ (fenceHalt H earned rules state).injected,
      i ∈ state.injected ∨ OfMovement i := by
    intro rules i hi
    unfold fenceHalt at hi
    split at hi
    · rcases mem_append.mp hi with hi | hi
      · exact .inl hi
      · obtain rfl := mem_singleton.mp hi
        exact .inr (.inl rfl)
    · exact .inl hi
  unfold injectMovement at h
  split at h
  · split at h
    · cases h
    · cases h
      exact fun i => .inl
  · rename_i rules _
    dsimp only at h
    split at h
    · cases h
      exact hfence rules
    obtain ⟨rule, -, -, rfl⟩ := injectEntry_ok h
    intro i hi
    rcases mem_append.mp hi with hi | hi
    · exact hfence rules i hi
    · obtain rfl := mem_singleton.mp hi
      exact .inr (.inr hearned)

theorem movement_of_injected {moved : Declaration}
    (h : injectMovementRules H grants frame vaultDeposit node = .ok (moved, injected)) :
    ∀ i ∈ injected, OfMovement i := by
  obtain ⟨state, hfold, h⟩ := bind_ok.mp h
  cases h
  have hmarks := foldlM_marks
    (R := fun s t : Movements => ∀ i ∈ t.injected, i ∈ s.injected ∨ OfMovement i)
    (Q := fun _ _ => True) (fun s i => .inl)
    (fun s t u hst htu i hi => (htu i hi).elim (hst i) .inr) (fun _ _ _ _ => id)
    (fun s t e he hstep => ⟨injectMovement_injected (earned_behaviour he) hstep, trivial⟩) hfold
  exact fun i hi => (hmarks.1 i hi).resolve_left (by simp)

structure IssuanceAnswer (H : Hasher) (signature : MethodSignature) (target : Address)
    (config : List Value) (node : ℕ) (issuance : Issuance) (grant : IssuanceGrant)
    (injected : List Injected) (rules : ResourceGrants) : Prop where
  resolved : issuance.grants.resolve H target config = .ok rules
  resource_eq : grant.resource = grantingIssuedResource H target issuance.kind rules issuance.mark
  direction_eq : grant.direction = issuance.direction
  founds : foundsItsResource issuance signature = true → injected = []
  entries : foundsItsResource issuance signature = false → ∃ entries : List (Option Injected),
    injected = entries.filterMap id ∧ List.Forall₂ (fun behaviour o =>
      injectedEntry rules[behaviour]? grant.resource behaviour (Claim.ofAddress target)
        node = .ok o)
      issuance.direction.behaviours entries

variable {signature : MethodSignature} {target : Address} {config : List Value}

theorem injectIssuance_ok {issuance : Issuance} {grant : IssuanceGrant}
    (h : injectIssuance H signature target config node issuance = .ok (grant, injected)) :
    ∃ rules, IssuanceAnswer H signature target config node issuance grant injected rules := by
  obtain ⟨rules, hrules, h⟩ := bind_ok.mp h
  rw [mapError_ok] at hrules
  refine ⟨rules, ?_⟩
  cases hfounds : foundsItsResource issuance signature with
  | true =>
    rw [if_pos hfounds] at h
    cases h
    exact ⟨hrules, rfl, rfl, fun _ => rfl, fun hf => by simp [hfounds] at hf⟩
  | false =>
    rw [if_neg (by simp [hfounds])] at h
    split at h
    · cases h
    rename_i own hown
    obtain ⟨entries, hentries, h⟩ := bind_ok.mp h
    cases h
    refine ⟨hrules, rfl, rfl, fun hf => by simp [hfounds] at hf, fun _ => ⟨entries, rfl, ?_⟩⟩
    rw [hown]
    exact mapM_ok.mp hentries

variable {issues : List IssuanceGrant}

theorem behaviour_of_issuance
    (h : injectIssuanceRules H signature target config node = .ok (issues, injected)) :
    ∀ i ∈ injected, i.behaviour = .mint ∨ i.behaviour = .burn := by
  obtain ⟨each, hmap, h⟩ := bind_ok.mp h
  cases h
  intro i hi
  obtain ⟨p, hp, hip⟩ := mem_flatMap.mp hi
  obtain ⟨issuance, -, hone⟩ := exists_mem_left (mapM_ok.mp hmap) hp
  obtain ⟨rules, hanswer⟩ := injectIssuance_ok hone
  cases hfounds : foundsItsResource issuance signature with
  | true =>
    rw [hanswer.founds hfounds] at hip
    cases hip
  | false =>
    obtain ⟨entries, heq, hentries⟩ := hanswer.entries hfounds
    rw [heq] at hip
    obtain ⟨o, ho, hsome⟩ := mem_filterMap.mp hip
    obtain ⟨behaviour, hb, hentry⟩ := exists_mem_left hentries ho
    obtain ⟨bytes, -, ⟨rfl, -⟩ | ⟨judged, rule, rfl, -⟩⟩ := injectedEntry_ok hentry
    · cases hsome
    cases hsome
    cases hd : issuance.direction with
    | minted => exact .inl (by simpa [hd, Issued.behaviours] using hb)
    | burned => exact .inr (by simpa [hd, Issued.behaviours] using hb)
    | either => simpa [hd, Issued.behaviours] using hb

theorem burn_of_destruction {inputs : List NodeInput}
    (h : injectDestructionRules grants signature inputs target node = .ok (issues, injected)) :
    (∀ grant ∈ issues, grant.direction = .burned) ∧ ∀ i ∈ injected, i.behaviour = .burn := by
  obtain ⟨each, hmap, h⟩ := bind_ok.mp h
  cases h
  have hone : ∀ p ∈ each, p.1.direction = .burned ∧ ∀ i ∈ p.2, i.behaviour = .burn := by
    intro p hp
    obtain ⟨param, -, hparam⟩ := exists_mem_left (mapM_ok.mp hmap) hp
    unfold injectDestruction at hparam
    split at hparam
    · obtain ⟨o, ho, hparam⟩ := bind_ok.mp hparam
      cases hparam
      obtain ⟨bytes, -, ⟨rfl, -⟩ | ⟨judged, rule, rfl, -⟩⟩ := injectedEntry_ok ho <;> simp
    · cases hparam
  refine ⟨fun grant hgrant => ?_, fun i hi => ?_⟩
  · obtain ⟨p, hp, rfl⟩ := List.mem_map.mp hgrant
    exact (hone p hp).1
  · rw [mem_foldl_keepNew] at hi
    obtain ⟨p, hp, hi⟩ := mem_filterMap.mp (hi.resolve_left (by simp))
    exact (hone p hp).2 i hi

namespace AdmittedNode

variable {H : Hasher} {S : Setting H} (n : AdmittedNode S)

def OwnClaimMeets (resource : ResourceAddr) (behaviour : GrantedBehaviour) : Prop :=
  ∃ rules bytes, GrantsOf H resource rules ∧ rules[behaviour]? = some bytes ∧
    behaviour.demanded bytes (Claim.ofAddress n.call.target.1) = some none

def Demanded (resource : ResourceAddr) (behaviour : GrantedBehaviour) : Prop :=
  (∃ i ∈ n.judged.injected, i.resource = resource ∧ i.behaviour = behaviour ∧
    (∃ rule, i.asks = .entry rule) ∧ i.rule ∈ n.judged.frame.required) ∨
  n.OwnClaimMeets resource behaviour

variable {behaviour : GrantedBehaviour}

theorem demanded_of_entry {entries : List (Option Injected)} {rules : ResourceGrants}
    {resource : ResourceAddr} {o : Option Injected} {node : ℕ}
    (hrules : GrantsOf H resource rules) (hmem : o ∈ entries)
    (hsub : ∀ i ∈ entries.filterMap id, i ∈ n.judged.injected)
    (h : injectedEntry rules[behaviour]? resource behaviour (Claim.ofAddress n.call.target.1) node =
      .ok o) : n.Demanded resource behaviour := by
  obtain ⟨bytes, hentry, ⟨rfl, hd⟩ | ⟨judged, rule, rfl, -⟩⟩ := injectedEntry_ok h
  · exact .inr ⟨rules, bytes, hrules, hentry, hd⟩
  · have hin := hsub _ (mem_filterMap.mpr ⟨_, hmem, rfl⟩)
    exact .inl ⟨_, hin, rfl, rfl, ⟨rule, rfl⟩, n.parts.required _ hin⟩

variable {reach : Reach}

omit n in
theorem behaviour_of_reach {E : EvalInputs} {ρ : List Value} {target : TargetExpr}
    (h : reachMeaning H E ρ (some behaviour) target = some (some reach)) :
    behaviour = reach.behaviour := by
  unfold reachMeaning at h
  dsimp only at h
  split at h
  · cases h
  · simp only [do_some, Option.some.injEq] at h
    obtain ⟨_, -, rfl⟩ := h
    rfl

theorem reach_of_gate (hgate : checkSignature n.resolved.signature = .ok ()) {a : DeclaredAccess}
    (ha : a ∈ n.judged.evaluated.ordered) (hr : a.reach = some reach) :
    reach.behaviour.reaches.isSome = true := by
  obtain ⟨l, guard, target, mode, denomination, behaviour, hl, hd⟩ :=
    fires_of_access n.parts.evaluated ha
  have hreach := hd.reach_eq
  rw [hr] at hreach
  cases behaviour with
  | none => cases hreach
  | some behaviour =>
    have hmem := hl.mem_flat
    rw [hd.clause_eq] at hmem
    obtain ⟨i, hi⟩ := judgeAccess_of_mem (checkSignature_ok.mp hgate).2.1 hmem
    obtain ⟨reached, _, _, _, hreached, -⟩ := judgeReach_ok (judgeAccess_reach hi)
    obtain rfl := behaviour_of_reach hreach
    rw [hreached]
    rfl

variable {i : Injected}

theorem injected_source (hi : i ∈ n.judged.injected) :
    i ∈ n.parts.reaches ∨ OfMovement i ∨ i ∈ n.parts.issuance ∨ i.behaviour = .burn := by
  rw [n.parts.injected_eq] at hi
  rcases mem_append.mp hi with hi | hi
  · rcases mem_append.mp hi with hi | hi
    · rcases mem_append.mp hi with hi | hi
      · exact .inl hi
      · exact .inr (.inl (movement_of_injected n.parts.movementsFrom i hi))
    · exact .inr (.inr (.inl hi))
  · exact .inr (.inr (.inr ((burn_of_destruction n.parts.destructionFrom).2 i hi)))

theorem declared_of_reach (hi : i ∈ n.parts.reaches) :
    ∃ a ∈ n.judged.evaluated.ordered, a.reach = some ⟨i.behaviour, i.resource⟩ := by
  obtain ⟨a, ha, hr⟩ := reach_of_injected n.parts.reachesFrom hi
  rcases n.parts.fencedFrom.added a ha with h | ⟨-, -, h⟩
  · exact ⟨a, h, hr⟩
  · rw [hr] at h
    cases h

end AdmittedNode

end HyperscaleVm.Effects.Admission

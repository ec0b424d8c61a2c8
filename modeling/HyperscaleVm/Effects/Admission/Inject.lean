import HyperscaleVm.Effects.Admission.Graph

/-!
# What the protocol puts on a frame (`effects/src/admission/inject.rs`, `node.rs`)
-/

namespace HyperscaleVm.Effects.Admission
open Library
open Publish

def judgeAccessPrefix (instance_ : Address) (node position : ℕ) (access : DeclaredAccess) :
    Except AdmissionError Unit :=
  let clause := access.clause.getD (min position (2 ^ 32 - 1))
  let owner := access.effect.target.owner
  match access.reach.isSome, decide (owner = instance_) with
  | false, false => .error (.foreignDeclaration node clause owner)
  | true, true => .error (.reachesItself node clause)
  | _, _ => .ok ()

def judgePrefixes (declaration : Declaration) (instance_ : Address) (node : ℕ) :
    Except AdmissionError Unit :=
  tryIndexed (judgeAccessPrefix instance_ node) declaration.ordered

theorem judgePrefixes_ok {declaration : Declaration} {instance_ : Address} {node : ℕ} :
    judgePrefixes declaration instance_ node = .ok () ↔
      ∀ a ∈ declaration.ordered, a.reach = none ↔ a.effect.target.owner = instance_ := by
  have hone : ∀ i (a : DeclaredAccess), judgeAccessPrefix instance_ node i a = .ok () ↔
      (a.reach = none ↔ a.effect.target.owner = instance_) := by
    intro i a
    unfold judgeAccessPrefix
    by_cases ho : a.effect.target.owner = instance_ <;> cases hr : a.reach <;> simp [ho]
  simp only [judgePrefixes, tryIndexed_ok, hone]
  exact ⟨fun h a ha => by
    obtain ⟨i, hi⟩ := List.getElem?_of_mem ha
    exact h i a hi, fun h i a hi => h a (List.mem_of_getElem? hi)⟩

inductive Asks where
  | entry (rule : StoredRule)
  | unhalted
  deriving DecidableEq

/-- A requirement the protocol put on a frame, and the entry behind it. -/
structure Injected where
  rule : Rule JudgedLeaf
  asks : Asks
  resource : ResourceAddr
  behaviour : GrantedBehaviour
  deriving DecidableEq

def judgedClaims (rule : StoredRule) : Option (Rule JudgedLeaf) :=
  rule.mapLeaves fun leaf =>
    match leaf with
    | .claim claim => some (.claim claim)
    | .held _ _ => none

def injectedEntry (entry : Option RuleBytes) (resource : ResourceAddr)
    (behaviour : GrantedBehaviour) (speakingFor : Option Claim) (node : ℕ) :
    Except AdmissionError (Option Injected) :=
  match entry with
  | none => .error (.unadmitted node resource behaviour)
  | some entry =>
    match behaviour.demanded entry speakingFor with
    | none => .error (.entryMalformed node resource behaviour)
    | some none => .ok none
    | some (some rule) =>
      match judgedClaims rule with
      | none => .error (.entryMalformed node resource behaviour)
      | some judged => .ok (some ⟨judged, .entry rule, resource, behaviour⟩)

section

variable (H : Hasher) (grants : PresentedGrants)

def injectIssuance (signature : MethodSignature) (target : Address) (config : List Value)
    (node : ℕ) (issuance : Issuance) : Except AdmissionError (IssuanceGrant × List Injected) := do
  let rules ← (issuance.grants.resolve H target config).mapError fun source =>
    .eval node (.grantsUnresolvable source)
  let resource := grantingIssuedResource H target issuance.kind rules issuance.mark
  let grant : IssuanceGrant := ⟨resource, issuance.kind, issuance.direction⟩
  if foundsItsResource issuance signature then return (grant, [])
  else
    match Claim.ofAddress target with
    | none => .error (.unadmitted node resource .mint)
    | some own =>
      let entries ← issuance.direction.behaviours.mapM fun behaviour =>
        injectedEntry rules[behaviour]? resource behaviour (some own) node
      return (grant, entries.filterMap id)

def injectIssuanceRules (signature : MethodSignature) (target : Address) (config : List Value)
    (node : ℕ) : Except AdmissionError (List IssuanceGrant × List Injected) := do
  let each ← signature.issues.mapM (injectIssuance H signature target config node)
  return (each.map (·.1), each.flatMap (·.2))

def injectDestruction (inputs : List NodeInput) (target : Address) (node param : ℕ) :
    Except AdmissionError (IssuanceGrant × Option Injected) :=
  match inputs[param]? with
  | some (.edge _ _ resource content _) => do
    let entry ← injectedEntry ((grants[resource]?).bind fun rules => rules[GrantedBehaviour.burn]?)
      resource .burn (Claim.ofAddress target) node
    return (⟨resource, content.kind, .burned⟩, entry)
  | _ => .error (.destroysNoEdge node param)

def injectDestructionRules (signature : MethodSignature) (inputs : List NodeInput)
    (target : Address) (node : ℕ) : Except AdmissionError (List IssuanceGrant × List Injected) := do
  let each ← signature.destroys.mapM (injectDestruction grants inputs target node)
  return (each.map (·.1), (each.filterMap (·.2)).foldl keepNew [])

def wantedReaches (frame : Declaration) : List Reach :=
  (frame.ordered.filterMap (·.reach)).foldl keepNew []

def injectReachRules (frame : Declaration) (reaching : Address) (node : ℕ) :
    Except AdmissionError (List Injected) := do
  let entries ← (wantedReaches frame).mapM fun reach =>
    injectedEntry ((grants[reach.resource]?).bind fun rules => rules[reach.behaviour]?)
      reach.resource reach.behaviour (Claim.ofAddress reaching) node
  return entries.filterMap id

def declareRead (frame : Declaration) (target : EffectTarget) : Declaration :=
  let effect : Effect := ⟨target, .read⟩
  match frame.set.insertBounded effect (frame.set.widthOf target) with
  | some (set, moved) =>
    if moved then
      { frame with set := set, ordered := frame.ordered ++ [⟨effect, none, none, none⟩] }
    else { frame with set := set }
  | none => frame

def holdingTarget (owner : Address) (badge : ResourceAddr) : Holding → EffectTarget
  | .balance => .point (vaultCell H owner badge)
  | .anyInstance => .range owner (holdingsCollection H owner badge.1) 0 (2 ^ 64 - 1) 1
  | .instance_ id => .entry owner (holdingsCollection H owner badge.1) id

structure Earned where
  owner : Address
  resource : ResourceAddr
  behaviour : GrantedBehaviour
  deriving DecidableEq

def earnedOf (access : DeclaredAccess) : List Earned :=
  match access.reach, access.holds, access.effect.mode.moves with
  | none, some resource, some moves =>
    (GrantedBehaviour.earnedBy moves).map fun behaviour =>
      ⟨access.effect.target.owner, resource, behaviour⟩
  | _, _, _ => []

def wantedMovements (frame : Declaration) : List Earned :=
  (frame.ordered.flatMap earnedOf).foldl keepNew []

structure Movements where
  frame : Declaration
  fenced : List (Address × ResourceAddr)
  injected : List Injected

def fenceHalt (earned : Earned) (rules : ResourceGrants) (state : Movements) : Movements :=
  if rules[GrantedBehaviour.halt]?.isSome && !state.fenced.contains (earned.owner, earned.resource)
  then
    let halted : EffectTarget := .point (haltFlag H earned.owner earned.resource.1)
    { frame := declareRead state.frame halted
      fenced := state.fenced ++ [(earned.owner, earned.resource)]
      injected := state.injected ++
        [⟨.require (.presence halted .absent), .unhalted, earned.resource, .halt⟩] }
  else state

def moverLeaf (owner : Address) : SealedLeaf → JudgedLeaf
  | .held badge holding => .presence (holdingTarget H owner badge holding) .present
  | .claim claim => .claim claim

def moverReads (owner : Address) (rule : StoredRule) : List EffectTarget :=
  rule.leaves.filterMap fun leaf =>
    match leaf with
    | .held badge holding => some (holdingTarget H owner badge holding)
    | .claim _ => none

def injectEntry (vaultDeposit : Bool) (node : ℕ) (earned : Earned) (sealed : RuleBytes)
    (state : Movements) : Except AdmissionError Movements :=
  match earned.behaviour.demanded sealed none with
  | none => .error (.entryMalformed node earned.resource earned.behaviour)
  | some none => .ok state
  | some (some rule) =>
    if rule = .never then .error (.movementForbidden node earned.resource earned.behaviour)
    else
      let resolved : Rule JudgedLeaf :=
        Id.run (rule.mapLeaves fun leaf => pure (moverLeaf H earned.owner leaf))
      if vaultDeposit && !(JudgedLeaf.stage resolved).beforeAnyLeg then
        .error (.movementUnanswerable node earned.resource earned.behaviour)
      else
        .ok { state with
          frame := (moverReads H earned.owner rule).foldl declareRead state.frame
          injected := state.injected ++
            [⟨resolved, .entry rule, earned.resource, earned.behaviour⟩] }

def injectMovement (vaultDeposit : Bool) (node : ℕ) (state : Movements) (earned : Earned) :
    Except AdmissionError Movements :=
  match grants[earned.resource]? with
  | none =>
    if earned.resource.1.cls = .restricted then .error (.recordWithheld node earned.resource)
    else .ok state
  | some rules =>
    let state := fenceHalt H earned rules state
    match rules[earned.behaviour]? with
    | none => .ok state
    | some sealed => injectEntry H vaultDeposit node earned sealed state

def injectMovementRules (frame : Declaration) (vaultDeposit : Bool) (node : ℕ) :
    Except AdmissionError (Declaration × List Injected) := do
  let state ← (wantedMovements frame).foldlM (injectMovement H grants vaultDeposit node)
    ⟨frame, [], []⟩
  return (state.frame, state.injected)

def configLeaf (target : Address) : EffectTarget := .point (childKey H target CONFIG [])

/-- The read of a component's configuration leaf and the presence it is held to, none for the node
that writes the leaf. -/
def fence (target : CallTarget) (frame : Declaration) :
    Except AdmissionError (Declaration × Option (Rule JudgedLeaf)) :=
  if target.1.cls ≠ .component then .ok (frame, none)
  else
    let leaf := configLeaf H target.1
    let grantsIt := frame.ordered.any fun access =>
      access.effect.target = leaf && access.effect.mode.kind = .write
    if grantsIt then .ok (frame, none)
    else
      let effect : Effect := ⟨leaf, .read⟩
      match frame.set.insertBounded effect (frame.set.widthOf leaf) with
      | none => .error .reserveOverflow
      | some (set, moved) =>
        let ordered :=
          if moved then frame.ordered ++ [⟨effect, none, none, none⟩] else frame.ordered
        .ok ({ frame with set := set, ordered := ordered },
          some (.require (.presence leaf .present)))

end

end HyperscaleVm.Effects.Admission

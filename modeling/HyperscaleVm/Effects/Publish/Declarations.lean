import HyperscaleVm.Effects.Signature

/-!
# The declaration gate (`effects/src/publish/declaration.rs`)
-/

namespace HyperscaleVm.Effects.Publish
open Library

inductive ResourceSite where
  | clause (clause : ℕ)
  | param (param : ℕ)
  | output (output : ℕ)
  deriving DecidableEq

inductive DeclarationError where
  | foreignPrefix (clause : ℕ)
  | presenceConflict (clause prior : ℕ)
  | conditionUndeclared (clause : ℕ)
  | vacuousCondition (clause : ℕ)
  | unmarkedIssuance (issuance : ℕ)
  | issuanceNamedTwice (issuance : ℕ)
  | unreachingBehaviour (clause : ℕ) (behaviour : GrantedBehaviour)
  | reachesItself (clause : ℕ)
  | reachesAnotherCell (clause : ℕ) (behaviour : GrantedBehaviour)
  | reachDoesNotTake (clause : ℕ)
  | reachUnadmitted (clause : ℕ) (behaviour : GrantedBehaviour)
  | slotWithoutReach (clause : ℕ)
  | unkeyedReach (clause : ℕ)
  | destroysNoEdge (param : ℕ)
  | destroyedTwice (param : ℕ)
  | issuanceUnadmitted (behaviour : GrantedBehaviour)
  | unjustifiedProof (clause : ℕ)
  | proofUnheld (clause : ℕ)
  | callerNamedCondition (clause : ℕ)
  | denominationArity (expected found : ℕ)
  | denominationKind (param : ℕ) (kind : String)
  | protocolSlotShape (clause slot : ℕ) (wanted : String)
  | denominationNotKeyed (clause : ℕ)
  | undenominatedMovement (clause : ℕ)
  | notAResource (site : ResourceSite) (found : AddressClass)
  | reservedSlot (clause slot : ℕ)
  | unsupportedAccess (clause : ℕ)
  | mixedContents (clause prior : ℕ)
  deriving DecidableEq

def targetsOwnPrefix : TargetExpr → Bool
  | .point (.childKey owner _ _) => owner = .selfAddr
  | .point (.freshKey _) => true
  | .point _ => false
  | .entry owner _ _ _ => owner = .selfAddr
  | .range owner _ _ _ _ _ => owner = .selfAddr

def decidedClass : Expr → Option AddressClass
  | .literal (.address a) => some a.cls
  | .selfAddr => some .component
  | _ => none

def namesAResource (cls : AddressClass) : Bool :=
  match cls with
  | .resource | .restricted => true
  | _ => false

def decidedNonResource (expr : Expr) : Option AddressClass :=
  (decidedClass expr).filter fun cls => !namesAResource cls

def complementary (left right : Option Expr) : Bool :=
  match left, right with
  | some left, some right => left = .not right || right = .not left
  | _, _ => false

def judgeReach (clause : ℕ) (target : TargetExpr) (mode : ModeExpr) (denomination : Option Expr)
    (behaviour : GrantedBehaviour) : Except DeclarationError Unit :=
  match behaviour.reaches with
  | none => .error (.unreachingBehaviour clause behaviour)
  | some reached => do
    require (!targetsOwnPrefix target) (.reachesItself clause)
    match slotOf target with
    | none => .error (.unkeyedReach clause)
    | some (slot, material) =>
      match material.head? with
      | none => .error (.unkeyedReach clause)
      | some resource => do
        require (decidedNonResource resource).isNone (.unkeyedReach clause)
        let admitted : Bool :=
          match resource with
          | .selfResource _ _ grants => (grants.get behaviour).isSome
          | _ => true
        require admitted (.reachUnadmitted clause behaviour)
        let namesItsCell : Bool :=
          match reached with
          | .halt => slot.isFixed = some HALT
          | .value => denomination.isSome
        require namesItsCell (.reachesAnotherCell clause behaviour)
        require (!(reached = .value && mode.moves ≠ some .out)) (.reachDoesNotTake clause)

/-- Whether a clause has the shape its protocol slot fixes, beside the sentence saying that shape;
`none` where the slot is assigned no cell. -/
def vocabularyShape (slot : SlotId) (target : TargetExpr) (material : Exprs) (mode : ModeExpr)
    (denomination : Option Expr) (requires : Option Presence) : Option (Bool × String) :=
  let point := target.isPoint
  let keyedByWhatItHolds : Bool :=
    match material, denomination with
    | .cons held .nil, some named => named = held
    | _, _ => false
  let keyed (terms : ℕ) : Bool := material.toList.length = terms && denomination.isNone
  let rewritten := mode.isRead || mode.isWrite
  let creates :=
    mode.isRead || (mode.isWrite && requires = some .absent)
  let lifetime := rewritten && (mode.isRead || requires.isSome)
  if slot = VAULT then
    some (point && keyedByWhatItHolds,
      "holds a fungible balance: one leaf, keyed by the resource it holds, " ++
      "denominated in that resource")
  else if slot = NF_VAULT then
    some (!point && keyedByWhatItHolds && rewritten,
      "holds a resource's instances: an interval or one of its entries, keyed by " ++
      "that resource and denominated in it")
  else if slot = CONFIG then
    some (point && keyed 0 && creates,
      "is the creation-fixed configuration leaf: one leaf, no material, " ++
      "written where absent and never rewritten")
  else if slot = AUTH then
    some (point && keyed 0 && rewritten,
      "is the stored authority cell: one leaf, no material, read or rewritten whole")
  else if slot = HALT then
    some (point && keyed 1 && rewritten,
      "is a holder's halt flag for one resource: one leaf, keyed by that resource, " ++
      "holding no value")
  else if slot = RESOURCE then
    some (point && keyed 1 && creates,
      "is a resource's record under its issuer: one leaf, keyed by the resource, " ++
      "written where absent")
  else if slot = INSTANCE then
    some (point && keyed 2 && lifetime,
      "is an instance's data under its issuer: one leaf, keyed by the resource and " ++
      "the id, written where the leaf's presence is stated — absent at the mint, " ++
      "present at a rewrite or a retirement")
  else none

def protocolShape (clause : ℕ) (target : TargetExpr) (mode : ModeExpr) (denomination : Option Expr)
    (requires : Option Presence) : Except DeclarationError Unit :=
  match slotOf target with
  | some (.fixed slot, material) =>
    if slot ≥ KERNEL_SLOT_BASE then .error (.reservedSlot clause slot)
    else if slot ≥ PACKAGE_SLOT_BASE then .ok ()
    else
      match vocabularyShape slot target material mode denomination requires with
      | none => .error (.reservedSlot clause slot)
      | some (shaped, wanted) => require shaped (.protocolSlotShape clause slot wanted)
  | _ => .ok ()

def requiredPresence (flat : List Clause) (guard : Option Expr) (target : TargetExpr) :
    Option Presence :=
  flat.findSome? fun beside =>
    match beside with
    | .requires conditionGuard (.require (.presence required presence)) =>
      if required = target ∧ (conditionGuard = none ∨ conditionGuard = guard) then some presence
      else none
    | _ => none

def judgeCell (clause : ℕ) (access : Clause) (target : TargetExpr) (mode : ModeExpr)
    (denomination : Option Expr) (requires : Option Presence) : Except DeclarationError Unit := do
  protocolShape clause target mode denomination requires
  require access.supports (.unsupportedAccess clause)
  match denomination with
  | some held => do
    require ((slotOf target).bind (fun p => p.2.head?) = some held) (.denominationNotKeyed clause)
    match decidedNonResource held with
    | some found => .error (.notAResource (.clause clause) found)
    | none => .ok ()
  | none =>
    match mode with
    | .delta _ | .reserve _ => .error (.undenominatedMovement clause)
    | .read | .write _ => .ok ()

def judgeAccess (flat : List Clause) (clause : ℕ) (access : Clause) :
    Except DeclarationError Unit :=
  match access with
  | .effect guard target mode denomination reach => do
    match reach with
    | some behaviour => judgeReach clause target mode denomination behaviour
    | none => do
      require (targetsOwnPrefix target) (.foreignPrefix clause)
      require (((slotOf target).bind fun p => p.1.isReached).isNone) (.slotWithoutReach clause)
    judgeCell clause access target mode denomination (requiredPresence flat guard target)
  | _ => .ok ()

/-- The leaf a point names, or the collection an entry or interval sits in. -/
inductive ContentsExpr where
  | leaf (key : Expr)
  | entries (owner : Expr) (collection : SlotRef) (material : Exprs)
  deriving DecidableEq

def contents : TargetExpr → ContentsExpr
  | .point key => .leaf key
  | .entry owner collection material _ => .entries owner collection material
  | .range owner collection material _ _ _ => .entries owner collection material

def presenceOf : Clause → Option (TargetExpr × Option Expr × Presence)
  | .requires guard (.require (.presence target expect)) => some (target, guard, expect)
  | _ => none

def ownContents : Clause → Option (ContentsExpr × Bool)
  | .effect _ target _ denomination none => some (contents target, denomination.isSome)
  | _ => none

def presenceConflict (flat : List Clause) (index : ℕ) (target : TargetExpr) (guard : Option Expr)
    (expect : Presence) : Option DeclarationError :=
  (flat.take index).zipIdx.findSome? fun (prior, i) =>
    match presenceOf prior with
    | some (target', guard', expect') =>
      if target' = target ∧ complementary guard' guard = false ∧ (expect'.meet expect).isNone then
        some (.presenceConflict index i)
      else none
    | none => none

def firstOn (flat : List Clause) (at_ : ContentsExpr) : Option (ℕ × Bool) :=
  flat.zipIdx.findSome? fun (prior, i) =>
    match ownContents prior with
    | some (at', said) => if at' = at_ then some (i, said) else none
    | none => none

def contentsConflict (flat : List Clause) (index : ℕ) (at_ : ContentsExpr) (value : Bool) :
    Option DeclarationError :=
  match firstOn flat at_ with
  | some (prior, said) => if said = value then none else some (.mixedContents index prior)
  | none => none

def checkAgreement (flat : List Clause) : Except DeclarationError Unit := do
  tryIndexed (fun index clause =>
    match presenceOf clause with
    | some (target, guard, expect) => refuse (presenceConflict flat index target guard expect)
    | none => .ok ()) flat
  tryIndexed (fun index clause =>
    match ownContents clause with
    | some (at_, value) => refuse (contentsConflict flat index at_ value)
    | none => .ok ()) flat

/-- An own access backing a condition on `target` under the guard `under`: declared as read
or written, and firing whenever the condition does as far as its guard says. -/
def backs (target : TargetExpr) (under : Option Expr) : Clause → Bool
  | .effect guard declared mode _ none =>
    declared = target && (mode.isRead || mode.isWrite) && (guard = none || guard = under)
  | _ => false

def leafReads : RuleLeaf → Option TargetExpr
  | .presence target _ => some target
  | .stored cell => some (.point cell)
  | .claim _ => none

def isVacuous : RuleLeaf → Bool
  | .presence _ .either => true
  | _ => false

def checkLeaf (flat : List Clause) (clause : ℕ) (under : Option Expr) (leaf : RuleLeaf) :
    Except DeclarationError Unit := do
  require (!isVacuous leaf) (.vacuousCondition clause)
  match leafReads leaf with
  | some target => require (flat.any (backs target under)) (.conditionUndeclared clause)
  | none => .ok ()

def possession : Expr → TargetExpr
  | .tuple (.cons resource (.cons id .nil)) =>
    .entry .selfAddr (.fixed NF_VAULT) (.single resource) id
  | badge => .point (selfChild VAULT (.single badge))

def namesTheHolder (under : Option Expr) : Clause → Bool
  | .requires guard rule =>
    rule.leaves.any (fun leaf =>
      match leaf with
      | .stored _ => true
      | .claim expr => expr = .selfAddr
      | .presence _ _ => false) && (guard = none || guard = under)
  | _ => false

def holdsPossession (claim : Expr) (under : Option Expr) (clause : Clause) : Bool :=
  match presenceOf clause with
  | some (target, guard, expect) =>
    target = possession claim && expect = .present && (guard = none || guard = under)
  | none => false

def checkMints (flat : List Clause) : Except DeclarationError Unit :=
  tryIndexed (fun index clause =>
    match clause with
    | .proves under claim =>
      if claim = .selfAddr then .ok ()
      else do
        require (flat.any (namesTheHolder under)) (.unjustifiedProof index)
        require (flat.any (holdsPossession claim under)) (.proofUnheld index)
    | _ => .ok ()) flat

def checkConditions (flat : List Clause) : Except DeclarationError Unit := do
  tryIndexed (fun index clause =>
    match clause with
    | .requires under rule => do
      require (!rule.namesCallerAuthority) (.callerNamedCondition index)
      tryAll (checkLeaf flat index under) rule.leaves
    | _ => .ok ()) flat
  checkMints flat

def foundingTarget (issuance : Issuance) : TargetExpr :=
  .point (selfChild RESOURCE
    (.single (.selfResource issuance.kind (.single (.literal (.bytes issuance.mark)))
      issuance.grants)))

def foundsWith (issuance : Issuance) : Clause → Bool
  | .effect _ target (.write _) _ none => target = foundingTarget issuance
  | _ => false

def founding (issuance : Issuance) (flat : List Clause) : Bool := flat.any (foundsWith issuance)

def foundsItsResource (issuance : Issuance) (signature : MethodSignature) : Bool :=
  founding issuance signature.flat

def checkIssuance (flat : List Clause) (issuance : Issuance) : Except DeclarationError Unit :=
  if founding issuance flat then .ok ()
  else
    tryAll (fun behaviour =>
      require (issuance.grants.get behaviour).isSome (.issuanceUnadmitted behaviour))
      issuance.direction.behaviours

def checkDenomination (signature : MethodSignature) (param : ℕ) (denomination : Option Expr) :
    Except DeclarationError Unit :=
  match denomination with
  | none => .ok ()
  | some expr => do
    match signature.params[param]? with
    | some kind => require kind.isEdge (.denominationKind param kind.name)
    | none => .ok ()
    match decidedNonResource expr with
    | some found => .error (.notAResource (.param param) found)
    | none => .ok ()

def checkDestroyed (signature : MethodSignature) (position param : ℕ) :
    Except DeclarationError Unit := do
  require ((signature.params[param]?.map ParamType.isEdge).getD false) (.destroysNoEdge param)
  require (!(signature.destroys.take position).contains param) (.destroyedTwice param)

/-- `judge_outputs`: a non-fungible projection is judged at the resource it names. -/
def judgeOutput (output : ℕ) (expr : Expr) : Except DeclarationError Unit :=
  let resource :=
    match expr with
    | .nfBucket resource _ => resource
    | expr => expr
  match decidedNonResource resource with
  | some found => .error (.notAResource (.output output) found)
  | none => .ok ()

def checkDeclarations (signature : MethodSignature) : Except DeclarationError Unit := do
  let flat := signature.flat
  checkAgreement flat
  require (signature.denominations.isEmpty
      || signature.denominations.length == signature.params.length)
    (.denominationArity signature.params.length signature.denominations.length)
  tryIndexed (checkDenomination signature) signature.denominations
  tryIndexed (fun position issuance =>
    require (!issuance.mark.isEmpty) (.unmarkedIssuance position))
    signature.issues
  tryIndexed (fun position issuance =>
    require (!(signature.issues.take position).any fun earlier =>
      earlier.mark = issuance.mark && earlier.kind = issuance.kind) (.issuanceNamedTwice position))
    signature.issues
  tryIndexed (checkDestroyed signature) signature.destroys
  tryAll (checkIssuance flat) signature.issues
  tryIndexed judgeOutput signature.outputs
  tryIndexed (judgeAccess flat) flat
  checkConditions flat

def seals (signature : MethodSignature) : Bool :=
  signature.flat.any fun clause =>
    match clause with
    | .effect _ target (.write _) _ none => target = .point (selfChild CONFIG .nil)
    | _ => false

variable {signature : MethodSignature}

theorem checkDeclarations_ok (h : checkDeclarations signature = .ok ()) :
    checkAgreement signature.flat = .ok () ∧
      (∀ issuance ∈ signature.issues, checkIssuance signature.flat issuance = .ok ()) ∧
      (∀ i c, signature.flat[i]? = some c → judgeAccess signature.flat i c = .ok ()) ∧
      checkConditions signature.flat = .ok () := by
  simp only [checkDeclarations, seq_ok, tryAll_ok, tryIndexed_ok] at h
  obtain ⟨hagree, -, -, -, -, -, hissue, -, haccess, hcond⟩ := h
  exact ⟨hagree, hissue, haccess, hcond⟩

theorem judgeAccess_of_mem
    (h : checkDeclarations signature = .ok ()) {c : Clause} (hc : c ∈ signature.flat) :
    ∃ i, judgeAccess signature.flat i c = .ok () := by
  obtain ⟨i, hi⟩ := List.getElem?_of_mem hc
  exact ⟨i, (checkDeclarations_ok h).2.2.1 i c hi⟩

section

variable {flat : List Clause} {i : ℕ} {guard : Option Expr} {target : TargetExpr} {mode : ModeExpr}
  {denomination : Option Expr}

theorem judgeAccess_cell {reach : Option GrantedBehaviour}
    (h : judgeAccess flat i (.effect guard target mode denomination reach) = .ok ()) :
    protocolShape i target mode denomination (requiredPresence flat guard target) = .ok () ∧
      ∀ held, denomination = some held → (slotOf target).bind (fun p => p.2.head?) = some held := by
  have hcell : judgeCell i (.effect guard target mode denomination reach) target mode denomination
      (requiredPresence flat guard target) = .ok () := by
    cases reach with
    | none =>
      simp only [judgeAccess, seq_ok] at h
      exact h.2.2
    | some behaviour =>
      simp only [judgeAccess, seq_ok] at h
      exact h.2
  simp only [judgeCell, seq_ok] at hcell
  obtain ⟨hshape, -, hden⟩ := hcell
  refine ⟨hshape, fun held hheld => ?_⟩
  subst hheld
  simp only [seq_ok, require_ok, decide_eq_true_eq] at hden
  exact hden.1

theorem judgeAccess_own
    (h : judgeAccess flat i (.effect guard target mode denomination none) = .ok ()) :
    targetsOwnPrefix target = true ∧ ((slotOf target).bind fun p => p.1.isReached) = none := by
  simp only [judgeAccess, seq_ok, require_ok, Option.isNone_iff_eq_none] at h
  exact ⟨h.1, h.2.1⟩

variable {behaviour : GrantedBehaviour}

theorem judgeAccess_reach
    (h : judgeAccess flat i (.effect guard target mode denomination (some behaviour)) = .ok ()) :
    judgeReach i target mode denomination behaviour = .ok () := by
  simp only [judgeAccess, seq_ok] at h
  exact h.1

theorem judgeReach_ok (h : judgeReach i target mode denomination behaviour = .ok ()) :
    ∃ reached slot material resource, behaviour.reaches = some reached ∧
      targetsOwnPrefix target = false ∧ slotOf target = some (slot, material) ∧
      material.head? = some resource ∧ (reached = .halt → slot.isFixed = some HALT) ∧
      (reached = .value → denomination.isSome = true ∧ mode.moves = some .out) := by
  unfold judgeReach at h
  split at h
  · cases h
  rename_i reached hreached
  rw [seq_ok] at h
  obtain ⟨hown, h⟩ := h
  split at h
  · cases h
  rename_i slot material hslot
  split at h
  · cases h
  rename_i resource hres
  simp only [seq_ok, require_ok] at h
  obtain ⟨-, -, hcell, htake⟩ := h
  refine ⟨reached, slot, material, resource, hreached, by simpa using hown, hslot, hres, ?_, ?_⟩
  · rintro rfl
    simpa using hcell
  · rintro rfl
    exact ⟨by simpa using hcell, by simpa using htake⟩

end

end HyperscaleVm.Effects.Publish

import HyperscaleVm.Effects.Declaration
import HyperscaleVm.Effects.Publish.Package

/-!
# Graphs, lowered calls and refusals
(`effects/src/graph.rs`, `intent.rs`, `manifest.rs`, `invoke.rs`, `admission/fill.rs`)
-/

namespace HyperscaleVm.Effects.Admission
open Std (ExtTreeMap ExtTreeSet)
open Publish

structure EdgeRef where
  producer : ℕ
  output : ℕ

structure GiveRef where
  member : ℕ
  give : ℕ
  deriving DecidableEq

inductive Constraint where
  | minAmount (amount : ℕ)
  | maxAmount (amount : ℕ)
  | resourceIs (resource : ResourceAddr)

inductive ValueRef where
  | edge (edge : EdgeRef)
  | give (give : GiveRef)
  | socket (socket : ℕ)

inductive GraphArg where
  | literal (value : Value)
  | value (source : ValueRef) (constraints : List Constraint)

inductive ClaimRef where
  | account (account : Address)
  | node (producer : ℕ)
  | socket (socket : ℕ)

/-- An address that can be called, by its class. -/
abbrev CallTarget := { a : Address // callable a = true }

def CallTarget.numbered (body : ℕ) : CallTarget := ⟨⟨body, .component⟩, rfl⟩

/-- One call. The evidence is a set, listed in the order the source walks it. -/
structure GraphNode where
  target : CallTarget
  method : String
  args : List GraphArg
  evidence : List ClaimRef

inductive Socket where
  | value (resource : ResourceAddr) (constraints : List Constraint)
  | authority (claim : Claim)

structure Produced where
  intent : ℕ
  edge : EdgeRef

inductive Fill where
  | value (produced : Produced) (through : List Constraint)
  | claim (intent node : ℕ)
  | account (account : Address)

def Fill.waitsOn : Fill → Option (ℕ × ℕ)
  | .value produced _ => some (produced.intent, produced.edge.producer)
  | .claim intent node => some (intent, node)
  | .account _ => none

structure IntentView where
  nodes : List GraphNode
  sockets : List Socket
  fills : List Fill
  memberGives : List (List Produced)
  accounts : List Address
  attestedBy : List Address
  identity : ℕ

def GraphNode.sockets (node : GraphNode) : List ℕ :=
  (node.args.filterMap fun arg =>
    match arg with
    | .value (.socket socket) _ => some socket
    | _ => none) ++
  node.evidence.filterMap fun reference =>
    match reference with
    | .socket socket => some socket
    | _ => none

def GraphNode.gives (node : GraphNode) : List GiveRef :=
  node.args.filterMap fun arg =>
    match arg with
    | .value (.give give) _ => some give
    | _ => none

def IntentView.give (view : IntentView) (give : GiveRef) : Option Produced := do
  let gives ← view.memberGives[give.member]?
  gives[give.give]?

structure Bounds where
  min : Option ℕ
  max : Option ℕ

inductive NodeInput where
  | literal (value : Value)
  | edge (source output : ℕ) (resource : ResourceAddr) (content : EdgeContent) (bounds : Bounds)

structure Node where
  target : Address
  method : String
  inputs : List NodeInput
  evidence : List Claim

structure IssuanceGrant where
  resource : ResourceAddr
  kind : ResourceKind
  direction : Issued
  deriving DecidableEq

inductive CallArg where
  | site (entries : List (Option ℕ))
  | bucket (source output : ℕ)
  | bool (value : Bool)
  | u64 (value : ℕ)
  | address (address : Address)
  | bytes (bytes : List ℕ)
  | ids (ids : List ℕ)

structure EdgeBound where
  source : ℕ
  output : ℕ
  param : ℕ
  bounds : Bounds

inductive Body where
  | guest
  | deposit

structure NodeCall where
  package : ℕ
  target : Address
  export_ : String
  args : List CallArg
  edges : List EdgeBound
  outputs : List EdgeContent
  answers : Bool
  issues : List IssuanceGrant
  evidence : List Claim
  requires : List (Rule JudgedLeaf)
  body : Body

structure NodeOrigin where
  intent : ℕ
  local_ : ℕ
  reservationShaped : Bool
  commitsNothing : Bool
  vaultDeposit : Bool

def NodeOrigin.of (intent local_ : ℕ) (signature : MethodSignature) : NodeOrigin :=
  ⟨intent, local_, signature.isReservationShaped, signature.commitsNothing,
    signature.isVaultDeposit⟩

structure ChainRecords where
  instance_ : CallTarget → Option InstanceMeta
  package : ℕ → Option PackageMetadata

/-- Every instance runs the one package of these methods. -/
def ChainRecords.running (methods : List (String × MethodSignature)) : ChainRecords :=
  ⟨fun _ => some ⟨0, [], 0⟩, fun _ => some (.ofMethods methods)⟩

abbrev PresentedGrants := ExtTreeMap ResourceAddr ResourceGrants

inductive ResolveError where
  | unknownInstance (target : Address)
  | unknownPackage (package : ℕ)
  | unknownMethod (package : ℕ) (method : String)
  deriving DecidableEq

inductive AdmissionError where
  | movementForbidden (node : ℕ) (resource : ResourceAddr) (behaviour : GrantedBehaviour)
  | recordWithheld (node : ℕ) (resource : ResourceAddr)
  | unadmitted (node : ℕ) (resource : ResourceAddr) (behaviour : GrantedBehaviour)
  | destroysNoEdge (node param : ℕ)
  | entryMalformed (node : ℕ) (resource : ResourceAddr) (behaviour : GrantedBehaviour)
  | tooManyNodes
  /-- An index the source takes unchecked is out of range: the source panics. -/
  | indexPanic
  | bindingArity (intent expected found : ℕ)
  | unknownBinding (intent socket : ℕ)
  | unknownGive (intent give : ℕ)
  | socketKindMismatch (intent socket : ℕ) (declared offered : String)
  | socketResourceMismatch (intent socket : ℕ)
  | unknownSocket (intent node socket : ℕ)
  | cyclicSockets
  | presentedForCall (node : ℕ) (method : String)
  | leafCreatedEarlier (node creator : ℕ)
  | missingEvidence (node : ℕ)
  | movementUnanswerable (node : ℕ) (resource : ResourceAddr) (behaviour : GrantedBehaviour)
  | socketClaimMismatch (intent node socket : ℕ)
  | evidenceUnsatisfied (node : ℕ) (rule : Option (Rule Claim)) (presented : List Claim)
  | unexpectedEvidence (node : ℕ)
  | foreignAccount (intent node : ℕ) (account : Address)
  | forwardProof (intent node producer : ℕ)
  | provesNothing (intent node producer : ℕ)
  | resolve (source : ResolveError)
  | arityMismatch (node expected found : ℕ)
  | paramKind (node param : ℕ) (expected found : String)
  | paramWidth (node param expected found : ℕ)
  | edgeForValueParam (node param : ℕ)
  | literalForBucketParam (node param : ℕ)
  | resourceKindMismatch (node param : ℕ) (expected : String) (found : ResourceKind)
  | forwardEdge (intent node producer : ℕ)
  | noSuchOutput (producer output : ℕ)
  | doubleConsumption (producer output : ℕ)
  | unconsumedOutput (producer output : ℕ)
  | unsatisfiableConstraint (node param : ℕ)
  | resourceMismatch (node param : ℕ)
  | wrongDenomination (node param : ℕ) (expected found : ResourceAddr)
  | denominationType (node param : ℕ)
  | outputType (node output : ℕ)
  | foreignDeclaration (node clause : ℕ) (owner : Address)
  | reachesItself (node clause : ℕ)
  | tableOverflow
  | unbindableAbiParam (node param : ℕ) (reason : String)
  | reserveOverflow
  | eval (node : ℕ) (source : EvalError)
  | socketForValueParam (node param : ℕ)
  | authoritySocketAsArgument (node param socket : ℕ)
  | tooManyIntents
  | treeTooDeep (intent : ℕ)
  | noAccount (intent : ℕ)
  | duplicateAccount (intent : ℕ)
  | noAttester (intent : ℕ)
  | duplicateAttester (intent : ℕ)
  | unconsumedSocket (intent socket : ℕ)
  | socketReused (intent socket : ℕ)
  | unconsumedGive (intent member give : ℕ)
  | giveReused (intent member give : ℕ)
  | rootSockets (socket : ℕ)
  | rootGives (give : ℕ)
  | valueTooDeep (node param : ℕ)
  | instanceValueTooDeep (instance_ : ℕ)
  | instanceConfigTooWide (instance_ : ℕ)
  | duplicateIntent (index : ℕ)
  | grantNotHeld (intent socket : ℕ) (account : Address)
  | grantClaimMismatch (intent socket : ℕ)
  deriving DecidableEq

end HyperscaleVm.Effects.Admission

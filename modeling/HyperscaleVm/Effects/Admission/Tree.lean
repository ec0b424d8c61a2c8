import HyperscaleVm.Effects.Admission.Admit

/-!
# The tree, flattened and resolved (`effects/src/admission/tree.rs`, `intent.rs`)
-/

namespace HyperscaleVm.Effects.Admission
open Library
open Std (ExtTreeMap)

structure IntentHeader where
  network : ℕ
  validityStartMs : ℕ
  validityEndMs : ℕ
  discriminator : ℕ

inductive Binding where
  | value (source : ValueRef)
  | authority (source : ClaimRef)

inductive Intent where
  | mk (header : IntentHeader) (accounts attestedBy : List Address) (nodes : List GraphNode)
      (sockets : List Socket) (gives : List ValueRef) (members : List (Intent × List Binding))

namespace Intent

def header : Intent → IntentHeader
  | mk header _ _ _ _ _ _ => header

def accounts : Intent → List Address
  | mk _ accounts _ _ _ _ _ => accounts

def attestedBy : Intent → List Address
  | mk _ _ attestedBy _ _ _ _ => attestedBy

def nodes : Intent → List GraphNode
  | mk _ _ _ nodes _ _ _ => nodes

def sockets : Intent → List Socket
  | mk _ _ _ _ sockets _ _ => sockets

def gives : Intent → List ValueRef
  | mk _ _ _ _ _ gives _ => gives

def members : Intent → List (Intent × List Binding)
  | mk _ _ _ _ _ _ members => members

end Intent

structure IntentTree where
  root : Intent
  instances : List InstanceMeta
  resources : List ResourceMeta

def MAX_INTENTS : ℕ := 33

def MAX_TREE_DEPTH : ℕ := 8

def MAX_MANIFEST_NODES : ℕ := 4096

def ARTIFACT_GRACE_MS : ℕ := 144000

structure Visit where
  intent : Intent
  composer : Option (ℕ × ℕ)
  depth : ℕ

mutual

def Intent.visits (at_ depth : ℕ) (composer : Option (ℕ × ℕ)) : Intent → List Visit
  | .mk header accounts attestedBy nodes sockets gives members =>
    ⟨.mk header accounts attestedBy nodes sockets gives members, composer, depth⟩ ::
      memberVisits (at_ + 1) (depth + 1) at_ 0 members

def memberVisits (next depth composer position : ℕ) : List (Intent × List Binding) → List Visit
  | [] => []
  | (intent, _) :: members =>
    let below := intent.visits next depth (some (composer, position))
    below ++ memberVisits (next + below.length) depth composer (position + 1) members

end

structure Flattened where
  intents : List Intent
  parent : List (Option (ℕ × ℕ))
  children : List (List ℕ)
  depth : List ℕ

def childrenOf (visits : List Visit) (composer : ℕ) : List ℕ :=
  visits.zipIdx.filterMap fun (visit, at_) =>
    if visit.composer.map Prod.fst = some composer then some at_ else none

def walk (root : Intent) : Flattened :=
  let visits := root.visits 0 1 none
  ⟨visits.map Visit.intent, visits.map Visit.composer,
    (List.range visits.length).map (childrenOf visits), visits.map Visit.depth⟩

def socketReaches (intent : Intent) : List (ℕ × Bool × Option ℕ) :=
  (intent.nodes.zipIdx.flatMap fun (node, index) =>
    (node.args.filterMap fun arg =>
      match arg with
      | .value (.socket socket) _ => some (socket, true, some index)
      | _ => none) ++
    node.evidence.filterMap fun reference =>
      match reference with
      | .socket socket => some (socket, false, some index)
      | _ => none) ++
  (intent.members.flatMap Prod.snd).filterMap fun binding =>
    match binding with
    | .value (.socket socket) => some (socket, true, none)
    | .authority (.socket socket) => some (socket, false, none)
    | _ => none

def Socket.isValue : Socket → Bool
  | .value _ _ => true
  | .authority _ => false

def checkReach (intent : Intent) (at_ : ℕ) : ℕ × Bool × Option ℕ → Except AdmissionError Unit
  | (socket, asValue, node) =>
    match intent.sockets[socket]?, node with
    | none, none => .ok ()
    | none, some node => .error (.unknownSocket at_ node socket)
    | some declared, _ =>
      require (declared.isValue = asValue)
        (.socketKindMismatch at_ socket (if declared.isValue then "value" else "authority")
          (if asValue then "an edge" else "a proof"))

def checkSocketUses (intent : Intent) (at_ : ℕ) : Except AdmissionError Unit := do
  tryAll (checkReach intent at_) (socketReaches intent)
  tryIndexed (fun position declared =>
    let uses := (socketReaches intent).countP fun reach => reach.1 = position
    if uses = 0 then .error (.unconsumedSocket at_ position)
    else if declared.isValue && 1 < uses then .error (.socketReused at_ position)
    else .ok ()) intent.sockets

def checkGivesHeld (intent : Intent) (at_ : ℕ) : Except AdmissionError Unit :=
  tryIndexed (fun position give =>
    match give with
    | .edge edge => require (edge.producer < intent.nodes.length) (.unknownGive at_ position)
    | .give give =>
      require ((intent.members[give.member]?.map fun member =>
        decide (give.give < member.1.gives.length)).getD false) (.unknownGive at_ position)
    | .socket _ => .error (.unknownGive at_ position)) intent.gives

def givesTaken (intent : Intent) : List GiveRef :=
  intent.nodes.flatMap GraphNode.gives ++
  ((intent.members.flatMap Prod.snd).filterMap fun binding =>
    match binding with
    | .value (.give give) => some give
    | _ => none) ++
  intent.gives.filterMap fun give =>
    match give with
    | .give give => some give
    | _ => none

def checkMemberGivesTaken (intent : Intent) (at_ : ℕ) : Except AdmissionError Unit :=
  tryIndexed (fun position (member : Intent × List Binding) =>
    tryIndexed (fun give _ =>
      match (givesTaken intent).count ⟨position, give⟩ with
      | 0 => .error (.unconsumedGive at_ position give)
      | 1 => .ok ()
      | _ => .error (.giveReused at_ position give)) member.1.gives) intent.members

def checkStructure (intent : Intent) (at_ : ℕ) : Except AdmissionError Unit := do
  checkSocketUses intent at_
  checkGivesHeld intent at_
  checkMemberGivesTaken intent at_

def Flattened.member (flat : Flattened) (composer position : ℕ) : Except AdmissionError ℕ :=
  match (flat.children[composer]?).bind fun members => members[position]? with
  | some member => .ok member
  | none => .error .indexPanic

def checkIntent (flat : Flattened) (at_ : ℕ) (intent : Intent) : Except AdmissionError Unit := do
  require (flat.depth[at_]?.getD 0 ≤ MAX_TREE_DEPTH) (.treeTooDeep at_)
  require (!intent.accounts.isEmpty) (.noAccount at_)
  require (decide intent.accounts.Nodup) (.duplicateAccount at_)
  require (!intent.attestedBy.isEmpty) (.noAttester at_)
  require (decide intent.attestedBy.Nodup) (.duplicateAttester at_)
  tryIndexed (fun position (member : Intent × List Binding) => do
    let number ← flat.member at_ position
    require (member.2.length = member.1.sockets.length)
      (.bindingArity number member.1.sockets.length member.2.length)) intent.members
  checkStructure intent at_

def flatten (root : Intent) : Except AdmissionError Flattened := do
  let flat := walk root
  require (flat.intents.length ≤ MAX_INTENTS) .tooManyIntents
  require ((flat.intents.map fun intent => intent.nodes.length).sum ≤ MAX_MANIFEST_NODES)
    .tooManyNodes
  tryIndexed (checkIntent flat) flat.intents
  require root.sockets.isEmpty (.rootSockets 0)
  require root.gives.isEmpty (.rootGives 0)
  return flat

section

variable (flat : Flattened)

def Flattened.intentAt (intent : ℕ) : Except AdmissionError Intent :=
  match flat.intents[intent]? with
  | some found => .ok found
  | none => .error .indexPanic

/-- A give followed down to the edge that produces it. A member stands after its composer, so as
many steps as there are intents suffice. -/
def yielded : ℕ → ℕ → ℕ → Except AdmissionError Produced
  | 0, _, _ => .error .indexPanic
  | steps + 1, intent, give => do
    let giver ← flat.intentAt intent
    match giver.gives[give]? with
    | none => .error .indexPanic
    | some (.edge edge) =>
      require (edge.producer < giver.nodes.length) (.unknownGive intent give)
      return ⟨intent, edge⟩
    | some (.give inner) =>
      require (inner.member < giver.members.length) (.unknownGive intent give)
      let child ← flat.member intent inner.member
      let below ← flat.intentAt child
      require (inner.give < below.gives.length) (.unknownGive intent give)
      yielded steps child inner.give
    | some (.socket _) => .error (.unknownGive intent give)

/-- The edge a composer wires into a value socket. `above` answers what fills the composer's own
sockets. -/
def fillValue (above : ℕ → Except AdmissionError Fill) (composer : ℕ) (resource : ResourceAddr)
    (source : ValueRef) (intent socket : ℕ) : Except AdmissionError Fill := do
  let holder ← flat.intentAt composer
  match source with
  | .edge edge =>
    require (edge.producer < holder.nodes.length) (.unknownBinding intent socket)
    return .value ⟨composer, edge⟩ []
  | .give give =>
    require (give.member < holder.members.length) (.unknownBinding intent socket)
    let child ← flat.member composer give.member
    let below ← flat.intentAt child
    require (give.give < below.gives.length) (.unknownBinding intent socket)
    let produced ← yielded flat flat.intents.length child give.give
    return .value produced []
  | .socket passed =>
    match holder.sockets[passed]? with
    | some (.value carried constraints) =>
      require (carried = resource) (.socketResourceMismatch intent socket)
      match ← above passed with
      | .value produced through => return .value produced (through ++ constraints)
      | _ => .error .indexPanic
    | _ => .error (.unknownBinding intent socket)

def fillAuthority (above : ℕ → Except AdmissionError Fill) (composer : ℕ) (wanted : Claim)
    (source : ClaimRef) (intent socket : ℕ) : Except AdmissionError Fill := do
  let holder ← flat.intentAt composer
  match source with
  | .node producer =>
    require (producer < holder.nodes.length) (.unknownBinding intent socket)
    return .claim composer producer
  | .account account =>
    require (holder.accounts.contains account) (.grantNotHeld intent socket account)
    require (wanted = Claim.ofSubject account) (.grantClaimMismatch intent socket)
    return .account account
  | .socket passed =>
    match holder.sockets[passed]? with
    | some (.authority carried) =>
      require (wanted = carried) (.grantClaimMismatch intent socket)
      above passed
    | _ => .error (.unknownBinding intent socket)

def Flattened.wiring (composer position socket : ℕ) : Except AdmissionError Binding := do
  let holder ← flat.intentAt composer
  match (holder.members[position]?).bind fun member => member.2[socket]? with
  | some binding => .ok binding
  | none => .error .indexPanic

/-- What fills a socket, followed up through the composers. A composer stands before its members, so
as many steps as there are intents suffice. -/
def fill : ℕ → ℕ → ℕ → Except AdmissionError Fill
  | 0, _, _ => .error .indexPanic
  | steps + 1, intent, socket =>
    match flat.parent[intent]? with
    | none => .error .indexPanic
    | some none => .error (.unknownBinding intent socket)
    | some (some (composer, position)) => do
      let declaring ← flat.intentAt intent
      let binding ← flat.wiring composer position socket
      match declaring.sockets[socket]?, binding with
      | some (.value resource _), .value source =>
        fillValue flat (fill steps composer) composer resource source intent socket
      | some (.authority wanted), .authority source =>
        fillAuthority flat (fill steps composer) composer wanted source intent socket
      | some (.value _ _), .authority _ =>
        .error (.socketKindMismatch intent socket "value" "a proof")
      | some (.authority _), .value _ =>
        .error (.socketKindMismatch intent socket "authority" "an edge")
      | none, _ => .error .indexPanic

structure Resolution where
  fills : List Fill
  memberGives : List (List Produced)

def resolveGives (at_ position : ℕ) : Except AdmissionError (List Produced) := do
  let member ← flat.member at_ position
  let giver ← flat.intentAt member
  (List.range giver.gives.length).mapM (yielded flat flat.intents.length member)

def resolveFills (at_ : ℕ) (intent : Intent) : Except AdmissionError (List Fill) :=
  (List.range intent.sockets.length).mapM (fill flat flat.intents.length at_)

def resolveTree : Except AdmissionError (List Resolution) := do
  let gives ← flat.intents.zipIdx.mapM fun (intent, at_) =>
    (List.range intent.members.length).mapM (resolveGives flat at_)
  let fills ← flat.intents.zipIdx.mapM fun (intent, at_) => resolveFills flat at_ intent
  return (fills.zip gives).map fun (fills, gives) => ⟨fills, gives⟩

end

structure IntentHasher where
  intent : Intent → ℕ
  nullifier : Address → ℕ → ℕ → SubstateKey

def checkValueDepth (nodes : List GraphNode) : Except AdmissionError Unit :=
  tryIndexed (fun index (node : GraphNode) => tryIndexed (fun position arg =>
    match arg with
    | .literal value => require (value.depth ≤ MAX_VALUE_DEPTH) (.valueTooDeep index position)
    | .value _ _ => .ok ()) node.args) nodes

def checkInstanceRecords {α : Type} (leafBytes : InstanceMeta → Option α)
    (records : List InstanceMeta) : Except AdmissionError Unit :=
  tryIndexed (fun index (record : InstanceMeta) => do
    require (record.config.all fun value => decide (value.depth ≤ MAX_VALUE_DEPTH))
      (.instanceValueTooDeep index)
    require (leafBytes record).isSome (.instanceConfigTooWide index)) records

theorem literals_within {nodes : List GraphNode} (h : checkValueDepth nodes = .ok ()) :
    ∀ node ∈ nodes, ∀ v, .literal v ∈ node.args → v.depth ≤ MAX_VALUE_DEPTH := by
  intro node hnode v hv
  obtain ⟨index, hindex⟩ := List.mem_iff_getElem?.mp hnode
  obtain ⟨position, hposition⟩ := List.mem_iff_getElem?.mp hv
  have harg := tryIndexed_ok.mp (tryIndexed_ok.mp h index node hindex) position _ hposition
  exact of_decide_eq_true (require_ok.mp harg)

theorem configs_within {α : Type} {leafBytes : InstanceMeta → Option α}
    {records : List InstanceMeta} (h : checkInstanceRecords leafBytes records = .ok ()) :
    ∀ record ∈ records, ∀ v ∈ record.config, v.depth ≤ MAX_VALUE_DEPTH := by
  intro record hrecord v hv
  obtain ⟨index, hindex⟩ := List.mem_iff_getElem?.mp hrecord
  obtain ⟨hconfig, -⟩ := seq_ok.mp (tryIndexed_ok.mp h index record hindex)
  rw [require_ok, List.all_eq_true] at hconfig
  exact of_decide_eq_true (hconfig v hv)

def checkIdentities (identities : List ℕ) : Except AdmissionError Unit :=
  tryIndexed (fun index hash =>
    require (!(identities.take index).contains hash) (.duplicateIntent index)) identities

def nullifierExpiryMs (header : IntentHeader) : ℕ :=
  min (header.validityEndMs + ARTIFACT_GRACE_MS) (2 ^ 64 - 1)

def nullifiers (N : IntentHasher) (intents : List Intent) : List SubstateKey :=
  intents.flatMap fun intent => intent.accounts.map fun account =>
    N.nullifier account (N.intent intent) (nullifierExpiryMs intent.header)

def pushKernelEffect (admitted : Admitted) (key : SubstateKey) : Except AdmissionError Admitted :=
  let effect : Effect := ⟨.point key, .write .both⟩
  match admitted.declaration.set.insertBounded effect MARKER_CELL_BYTES with
  | none => .error .indexPanic
  | some (set, _) => .ok { admitted with
      declaration := { admitted.declaration with
        set := set
        ordered := admitted.declaration.ordered ++ [⟨effect, none, none, none⟩] } }

def viewOf (N : IntentHasher) (intent : Intent) (resolution : Resolution) : IntentView :=
  ⟨intent.nodes, intent.sockets, resolution.fills, resolution.memberGives, intent.accounts,
    intent.attestedBy, N.intent intent⟩

def envelopeOf (N : IntentHasher) (tree : IntentTree) (flat : Flattened)
    (resolutions : List Resolution) (identity : ℕ) (chain : ChainRecords)
    (ruleOf : List ℕ → Option StoredRule) : Envelope :=
  ⟨(flat.intents.zip resolutions).map fun (intent, resolution) => viewOf N intent resolution,
    identity, chain, tree.instances, tree.resources, ruleOf⟩

theorem envelopeOf_view {N : IntentHasher} {tree : IntentTree} {flat : Flattened}
    {resolutions : List Resolution} {identity : ℕ} {chain : ChainRecords}
    {ruleOf : List ℕ → Option StoredRule} {k : ℕ} {view : IntentView} :
    (envelopeOf N tree flat resolutions identity chain ruleOf).intents[k]? = some view ↔
      ∃ intent resolution, flat.intents[k]? = some intent ∧ resolutions[k]? = some resolution ∧
        viewOf N intent resolution = view := by
  simp only [envelopeOf, List.getElem?_map, Option.map_eq_some_iff, Prod.exists,
    List.getElem?_zip_eq_some, and_assoc]

def admitTree (H : Hasher) (N : IntentHasher) (tree : IntentTree) (identity : ℕ)
    (chain : ChainRecords) (ruleOf : List ℕ → Option StoredRule) :
    Except AdmissionError Admitted := do
  let flat ← flatten tree.root
  tryAll (fun intent => checkValueDepth intent.nodes) flat.intents
  checkInstanceRecords H.leafBytes tree.instances
  checkIdentities (flat.intents.map N.intent)
  let resolutions ← resolveTree flat
  let admitted ← admitIntents H (envelopeOf N tree flat resolutions identity chain ruleOf)
  (nullifiers N flat.intents).foldlM pushKernelEffect admitted

end HyperscaleVm.Effects.Admission

import HyperscaleVm.Effects.Admission.Admit
import Mathlib.Data.Finset.Sort

/-!
# The star classifier (`effects/src/star.rs`, `types/src/legs.rs`)

How the participants of a routed transaction divide its execution. A shard is a number,
and a placement is a function from owners to shards.
-/

namespace HyperscaleVm.Effects.Placement
open Admission

inductive LegRole where
  | inbound
  | core
  | outbound
  | attesting
  deriving DecidableEq

structure ValueEdge where
  source : ℕ
  output : ℕ
  nonFungible : Bool

structure LegShape where
  target : Address
  role : LegRole
  edges : List ValueEdge
  presents : List Address
  declares : List Address
  intent : ℕ
  local_ : ℕ

def unsigned (local_ : ℕ) : NodeOrigin := ⟨0, local_, false, false, false⟩

def originAt (origins : List NodeOrigin) (index : ℕ) : NodeOrigin :=
  origins[index]?.getD (unsigned index)

def admitAnything (bounds : Bounds) : Bool := bounds.min.isNone && bounds.max.isNone

def edgeOf : NodeInput → Option ValueEdge
  | .edge source output _ content _ => some ⟨source, output, content.kind = .nonFungible⟩
  | .literal _ => none

def takesNoEdge (node : Node) : Bool :=
  node.inputs.all fun input =>
    match input with
    | .literal _ => true
    | .edge _ _ _ _ _ => false

def unrefusable (origin : NodeOrigin) (answered : Bool) (node : Node) : Bool :=
  origin.vaultDeposit && answered && node.inputs.all fun input =>
    match input with
    | .edge _ _ _ _ bounds => admitAnything bounds
    | .literal _ => true

/-- `classify_roles`, for one node. -/
def classifyRole (nodes : List Node) (origins : List NodeOrigin) (answered : List Bool)
    (index : ℕ) (node : Node) : LegRole :=
  let consumed := nodes.flatMap fun node => (node.inputs.filterMap edgeOf).map ValueEdge.source
  let origin := originAt origins index
  if takesNoEdge node && origin.reservationShaped then .inbound
  else if takesNoEdge node && origin.commitsNothing then .attesting
  else if !consumed.contains index && unrefusable origin (answered[index]?.getD false) node then
    .outbound
  else .core

def answeredAtAdmission (admitted : Admitted) : List Bool :=
  admitted.calls.zipIdx.map fun (call, index) =>
    call.requires.all (fun rule => JudgedLeaf.stage rule = .atAdmission) &&
      admitted.declaration.conditions.all fun condition => condition.node ≠ some index

/-- `legs_of`: `classify_roles` and `assemble`. -/
def legsOf (admitted : Admitted) : List LegShape :=
  admitted.nodes.zipIdx.map fun (node, index) =>
    let origin := originAt admitted.origins index
    { target := node.target
      role := classifyRole admitted.nodes admitted.origins (answeredAtAdmission admitted) index node
      edges := node.inputs.filterMap edgeOf
      presents := node.evidence.map Claim.subject
      declares := ((admitted.frames[index]?).map fun frame =>
        frame.map fun access => access.effect.target.owner).getD [node.target]
      intent := origin.intent
      local_ := origin.local_ }

inductive Kind where
  | escrowed
  | owed
  deriving DecidableEq

structure CrossingId where
  producer : Address
  consumer : Address
  intent : ℕ
  local_ : ℕ
  output : ℕ

structure CrossingEdge where
  producer : ℕ
  output : ℕ
  consumer : ℕ
  from_ : ℕ
  to_ : Finset ℕ
  id : CrossingId
  kind : Kind

structure Star where
  roles : List LegRole
  homes : List ℕ
  core : Finset ℕ
  edges : List CrossingEdge
  decomposes : Bool

def MAX_CROSSINGS_PER_TX : ℕ := 128

section

variable (legs : List LegShape) (shards : Address → ℕ)

def actsAsStranger (node : LegShape) : Bool :=
  node.presents.any fun subject => subject.cls = .principal && shards subject ≠ shards node.target

def namesNode (node : LegShape) (subject : Address) : Bool :=
  subject.cls ≠ .principal &&
    (subject = node.target || !legs.any fun other => other.target = subject)

def staysHome (node : LegShape) : Bool :=
  legs.all fun other =>
    shards other.target = shards node.target || !other.presents.any (namesNode legs node)

def drawnRole (node : LegShape) : LegRole :=
  if actsAsStranger shards node then .core
  else if node.role = .attesting && !staysHome legs shards node then .core
  else node.role

def homesOf : List ℕ := legs.map fun node => shards node.target

/-- The core's shards: the homes of the nodes drawn into it, or the payer's home, where a
node is on it, if there are none. -/
def coreShards (payer : Address) : Finset ℕ :=
  let core := ((legs.filter fun node => drawnRole legs shards node = .core).map fun node =>
    shards node.target).toFinset
  if core = ∅ ∧ shards payer ∈ homesOf legs shards then {shards payer} else core

def settle (payer : Address) : List LegRole :=
  legs.map fun node =>
    if shards node.target ∈ coreShards legs shards payer then .core
    else drawnRole legs shards node

end

def roleAt (roles : List LegRole) (node : ℕ) : LegRole := roles[node]?.getD .core

def runningAt (roles : List LegRole) (homes : List ℕ) (core : Finset ℕ) (node : ℕ) : Finset ℕ :=
  match roleAt roles node with
  | .core => core
  | .inbound | .outbound | .attesting => homes[node]?.toList.toFinset

structure Placed where
  legs : List LegShape
  roles : List LegRole
  homes : List ℕ
  core : Finset ℕ

namespace Placed

variable (P : Placed)

def role (node : ℕ) : LegRole := roleAt P.roles node

def running (node : ℕ) : Finset ℕ := runningAt P.roles P.homes P.core node

def crossing (consumer : ℕ) (node : LegShape) (edge : ValueEdge) : Option CrossingEdge :=
  match P.legs[edge.source]?, P.homes[edge.source]? with
  | some producer, some from_ =>
    let to_ := P.running consumer \ P.running edge.source
    if to_ = ∅ then none
    else some {
      producer := edge.source
      output := edge.output
      consumer := consumer
      from_ := from_
      to_ := to_
      id := ⟨producer.target, node.target, producer.intent, producer.local_, edge.output⟩
      kind := if P.role consumer = .outbound then .owed else .escrowed }
  | _, _ => none

/-- `crossing_edges`, in the order of producer and output. -/
def crossingEdges : List CrossingEdge :=
  (P.legs.zipIdx.flatMap fun (node, consumer) =>
    node.edges.filterMap (P.crossing consumer node)).insertionSort fun a b =>
      a.producer < b.producer ∨ a.producer = b.producer ∧ a.output ≤ b.output

def deliveredAt (edges : List CrossingEdge) (node shard : ℕ) : Bool :=
  edges.any fun edge => edge.kind = .owed && edge.consumer = node && shard ∈ edge.to_

/-- `committing_at`: the shards running some node they do not take delivery of. -/
def committing (edges : List CrossingEdge) : Finset ℕ :=
  (List.range P.homes.length).toFinset.biUnion fun node =>
    (P.running node).filter fun shard => !deliveredAt edges node shard

def aLegSitsOffTheCore : Bool :=
  (P.roles.zip P.homes).any fun (role, home) => role ≠ .core && home ∉ P.core

def everyRouteOwnerCommits (committing : Finset ℕ) (payer : Address) (accounts : List Address)
    (shards : Address → ℕ) : Bool :=
  (payer :: accounts).all fun owner => shards owner ∈ committing

def awaitedByCore (edges : List CrossingEdge) : Finset ℕ :=
  P.core ∪ ((edges.filter fun edge => P.role edge.consumer = .core).map
    CrossingEdge.from_).toFinset

def everyAccountIsAwaited (accounts : List Address) (edges : List CrossingEdge)
    (shards : Address → ℕ) : Bool :=
  accounts.all fun account => shards account ∈ P.awaitedByCore edges

def everyNodeDeclaresInsideItsScope (shards : Address → ℕ) : Bool :=
  ((P.roles.zip P.legs).zip P.homes).all fun ((role, node), home) =>
    node.declares.all fun owner =>
      match role with
      | .core => shards owner ∈ P.core
      | .inbound | .outbound | .attesting => shards owner = home

def everyEdgeHasOneConsumer : Bool :=
  let consumed := P.legs.flatMap fun node => node.edges.map fun edge => (edge.source, edge.output)
  consumed.all fun edge => consumed.count edge ≤ 1

def noNamedInstanceTouchesALeg : Bool :=
  P.legs.zipIdx.all fun (node, index) => node.edges.all fun edge =>
    !edge.nonFungible || !(P.role index ≠ .core || P.role edge.source ≠ .core)

def noSinkIsFedFromBothSides : Bool :=
  P.legs.zipIdx.all fun (leg, node) =>
    if P.role node ≠ .outbound then true
    else
      let beside := leg.edges.map fun edge =>
        decide (∃ home ∈ P.homes[node]?, home ∈ P.running edge.source)
      beside.all id || beside.all not

def decomposes (payer : Address) (accounts : List Address) (edges : List CrossingEdge)
    (shards : Address → ℕ) : Bool :=
  P.core ≠ ∅ && P.aLegSitsOffTheCore && edges.length ≤ MAX_CROSSINGS_PER_TX &&
    everyRouteOwnerCommits (P.committing edges) payer accounts shards &&
    P.everyAccountIsAwaited accounts edges shards && P.everyNodeDeclaresInsideItsScope shards &&
    P.everyEdgeHasOneConsumer && P.noNamedInstanceTouchesALeg && P.noSinkIsFedFromBothSides

end Placed

def placedAt (legs : List LegShape) (payer : Address) (shards : Address → ℕ) : Placed :=
  let roles := settle legs shards payer
  let homes := homesOf legs shards
  let core := (((roles.zip homes).filter fun p => p.1 = LegRole.core).map Prod.snd).toFinset
  ⟨legs, roles, homes, core⟩

def starAt (legs : List LegShape) (payer : Address) (accounts : List Address)
    (shards : Address → ℕ) : Star :=
  let P := placedAt legs payer shards
  let edges := P.crossingEdges
  ⟨P.roles, P.homes, P.core, edges, P.decomposes payer accounts edges shards⟩

namespace Star

variable (star : Star)

def role (node : ℕ) : LegRole := roleAt star.roles node

def running (node : ℕ) : Finset ℕ := runningAt star.roles star.homes star.core node

end Star

end HyperscaleVm.Effects.Placement

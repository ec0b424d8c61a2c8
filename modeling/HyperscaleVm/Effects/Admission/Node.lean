import HyperscaleVm.Effects.Admission.Inject

/-!
# Lowering one node (`effects/src/admission/node.rs`, `edge.rs`, `abi.rs`)
-/

namespace HyperscaleVm.Effects.Admission
open Publish Library
open Std (ExtTreeMap)

structure ResourceMeta where
  namespace_ : Address
  kind : ResourceKind
  material : List Value
  rules : ResourceGrants

def ResourceMeta.address (H : Hasher) (meta_ : ResourceMeta) : ResourceAddr :=
  grantingResourceAddress H meta_.namespace_ meta_.kind meta_.rules meta_.material

def fromPresented (H : Hasher) (records : List ResourceMeta) : PresentedGrants :=
  records.foldl (fun granted record => granted.insertIfNew (record.address H) record.rules) ∅

/-- What admission judges: the resolved intents, the records the chain answers for, and
the records the envelope presents beside them. -/
structure Envelope where
  intents : List IntentView
  identity : ℕ
  chain : ChainRecords
  instances : List InstanceMeta
  resources : List ResourceMeta
  ruleOf : List ℕ → Option StoredRule

def Envelope.calling (nodes : List GraphNode) (methods : List (String × MethodSignature)) :
    Envelope :=
  ⟨[⟨nodes, [], [], [], [], [], 0⟩], 0, .running methods, [], [], fun _ => none⟩

structure Setting (H : Hasher) extends Envelope where
  flatOf : List (List ℕ)

variable {H : Hasher} (S : Setting H)

def Setting.grants : PresentedGrants := fromPresented H S.resources

def InstanceMeta.address (H : Hasher) (meta_ : InstanceMeta) : Address :=
  ⟨H.component meta_, .component⟩

def Setting.presented (target : Address) : Bool :=
  S.instances.any fun record => InstanceMeta.address H record = target

/-- The chain first, then the envelope's own components, the last of two records deriving one
address. -/
def Setting.instance_ (target : CallTarget) : Option InstanceMeta :=
  match S.chain.instance_ target with
  | some record => some record
  | none => S.instances.reverse.find? fun record => InstanceMeta.address H record = target.1

structure Edges where
  outputs : List (List (ResourceAddr × EdgeContent))
  consumed : List (List ℕ)

def tighten (resource : ResourceAddr) (node param : ℕ) (bounds : Bounds) :
    Constraint → Except AdmissionError Bounds
  | .minAmount amount =>
    .ok { bounds with min := some ((bounds.min.map fun bound => max bound amount).getD amount) }
  | .maxAmount amount =>
    .ok { bounds with max := some ((bounds.max.map fun bound => min bound amount).getD amount) }
  | .resourceIs address =>
    if address = resource then .ok bounds else .error (.resourceMismatch node param)

def checkConstraints (constraints : List Constraint) (resource : ResourceAddr) (node param : ℕ) :
    Except AdmissionError Bounds := do
  let bounds ← constraints.foldlM (tighten resource node param) ⟨none, none⟩
  match bounds.min, bounds.max with
  | some min, some max =>
    if min > max then .error (.unsatisfiableConstraint node param) else .ok bounds
  | _, _ => .ok bounds

def Edges.consumedAt (edges : Edges) (source output : ℕ) : ℕ :=
  ((edges.consumed[source]?.bind fun counts => counts[output]?).getD 0) + 1

def Edges.consume (edges : Edges) (source output : ℕ) : Edges :=
  { edges with consumed := edges.consumed.modify source fun counts => counts.modify output (· + 1) }

def bindEdge (edges : Edges) (source output : ℕ) (constraints : List Constraint)
    (paramType : ParamType) (node param : ℕ) (verify : ResourceAddr → Except AdmissionError Unit) :
    Except AdmissionError (Value × NodeInput × Edges) :=
  match edges.outputs[source]? with
  | none => .error .indexPanic
  | some outputs =>
    match outputs[output]? with
    | none => .error (.noSuchOutput source output)
    | some (resource, content) => do
      verify resource
      require (edges.consumedAt source output ≤ 1) (.doubleConsumption source output)
      require (paramType.edgeKind = some content.kind)
        (.resourceKindMismatch node param paramType.name content.kind)
      let bounds ← checkConstraints constraints resource node param
      return (.bucket resource content, .edge source output resource content bounds,
        edges.consume source output)

/-- `bind_args` on a literal. -/
def bindLiteral (ruleOf : List ℕ → Option StoredRule) (value : Value) (paramType : ParamType)
    (node param : ℕ) : Except AdmissionError (Value × NodeInput) :=
  if paramType.isEdge then .error (.literalForBucketParam node param)
  else if paramType.admits ruleOf value then .ok (value, .literal value)
  else
    match paramType, value with
    | .bytesExact expected, .bytes bytes => .error (.paramWidth node param expected bytes.length)
    | _, _ => .error (.paramKind node param paramType.name value.kind.text)

def Setting.flat (intent node : ℕ) : Except AdmissionError ℕ :=
  match (S.flatOf[intent]?).bind fun flat => flat[node]? with
  | some flat => .ok flat
  | none => .error .indexPanic

def bindGive (view : IntentView) (intent : ℕ) (give : GiveRef) (constraints : List Constraint)
    (paramType : ParamType) (node param : ℕ) (edges : Edges) :
    Except AdmissionError (Value × NodeInput × Edges) := do
  require paramType.isEdge (.edgeForValueParam node param)
  match view.give give with
  | none => .error (.unknownGive intent give.give)
  | some produced =>
    let source ← S.flat produced.intent produced.edge.producer
    bindEdge edges source produced.edge.output constraints paramType node param fun _ => .ok ()

/-- Under the declaration's constraints, those of every socket the edge passed through, and the
argument's own. -/
def bindSocket (view : IntentView) (intent local_ reference : ℕ) (asked : List Constraint)
    (paramType : ParamType) (node param : ℕ) (edges : Edges) :
    Except AdmissionError (Value × NodeInput × Edges) :=
  match view.sockets[reference]?, view.fills[reference]? with
  | some decl, some fill => do
    require paramType.isEdge (.socketForValueParam node param)
    match decl, fill with
    | .value declared constraints, .value produced through =>
      let source ← S.flat produced.intent produced.edge.producer
      bindEdge edges source produced.edge.output (constraints ++ through ++ asked) paramType node
        param fun resource =>
          require (resource = declared) (.socketResourceMismatch intent reference)
    | _, _ => .error (.authoritySocketAsArgument node param reference)
  | _, _ => .error (.unknownSocket intent local_ reference)

def bindArg (view : IntentView) (intent local_ node param : ℕ) (arg : GraphArg)
    (paramType : ParamType) (edges : Edges) : Except AdmissionError (Value × NodeInput × Edges) :=
  match arg with
  | .literal value => do
    let (value, input) ← bindLiteral S.ruleOf value paramType node param
    return (value, input, edges)
  | .value (.edge edge) constraints => do
    require paramType.isEdge (.edgeForValueParam node param)
    require (edge.producer < local_) (.forwardEdge intent local_ edge.producer)
    let source ← S.flat intent edge.producer
    bindEdge edges source edge.output constraints paramType node param fun _ => .ok ()
  | .value (.socket reference) constraints =>
    bindSocket S view intent local_ reference constraints paramType node param edges
  | .value (.give give) constraints =>
    bindGive S view intent give constraints paramType node param edges

structure Bound where
  values : List Value
  inputs : List NodeInput
  edges : Edges

def bindArgs (view : IntentView) (intent local_ node : ℕ) (args : List GraphArg)
    (params : List ParamType) (edges : Edges) : Except AdmissionError Bound :=
  (args.zip params).zipIdx.foldlM (fun bound ((arg, paramType), param) => do
    let (value, input, edges) ← bindArg S view intent local_ node param arg paramType bound.edges
    return ⟨bound.values ++ [value], bound.inputs ++ [input], edges⟩) ⟨[], [], edges⟩

def judgedHere (frame : Declaration) : List (Rule JudgedLeaf) :=
  frame.required.filter fun rule => JudgedLeaf.stage rule ≠ .atMaterialization

def checkEvidencePresence (required : List (Rule JudgedLeaf)) (evidence : List ClaimRef)
    (node : ℕ) : Except AdmissionError Unit :=
  match required.isEmpty, evidence.isEmpty with
  | false, true => .error (.missingEvidence node)
  | true, false => .error (.unexpectedEvidence node)
  | _, _ => .ok ()

def spendEnvelope (node units spent : ℕ) : Except AdmissionError ℕ :=
  if spent + units > MAX_ENVELOPE_EVALUATION_WORK then .error (.eval node .envelopeTooMuchWork)
  else .ok (spent + units)

def resolveClaim (view : IntentView) (intent local_ node : ℕ) (proven : List (List Claim))
    (reference : ClaimRef) (spent : ℕ) : Except AdmissionError (List Claim × ℕ) :=
  match reference with
  | .account account =>
    if view.accounts.contains account then .ok ([Claim.ofSubject account], spent)
    else .error (.foreignAccount intent local_ account)
  | .node producer =>
    if producer < local_ then do
      let flat ← S.flat intent producer
      match proven[flat]? with
      | some (claim :: claims) =>
        let spent ← spendEnvelope node (claims.length + 1) spent
        return (claim :: claims, spent)
      | _ => .error (.provesNothing intent local_ producer)
    else .error (.forwardProof intent local_ producer)
  | .socket reference =>
    match view.sockets[reference]?, view.fills[reference]? with
    | some (.authority wanted), some (.account _) => .ok ([wanted], spent)
    | some (.authority wanted), some (.claim source producer) =>
      match (S.flatOf[source]?).bind fun flat => flat[producer]? with
      | none => .error (.unknownSocket intent local_ reference)
      | some flat =>
        match proven[flat]? with
        | none => .error .indexPanic
        | some claims =>
          if claims.contains wanted then .ok ([wanted], spent)
          else .error (.socketClaimMismatch intent local_ reference)
    | _, _ => .error (.unknownSocket intent local_ reference)

def judgePresented (required : List (Rule JudgedLeaf)) (evidence : List Claim) (node : ℕ) :
    Except AdmissionError Unit :=
  tryAll (fun rule =>
    if JudgedLeaf.stage rule ≠ .atAdmission then .ok ()
    else
      match Rule.mapLeaves (m := Option) (fun leaf =>
        match leaf with
        | .claim claim => some claim
        | _ => none) rule with
      | none => .error (.evidenceUnsatisfied node none evidence)
      | some judged =>
        require (judged.satisfiedBy evidence) (.evidenceUnsatisfied node (some judged) evidence))
    required

def resolveEvidence (view : IntentView) (intent local_ node : ℕ) (call : GraphNode)
    (frame : Declaration) (proven : List (List Claim)) (spent : ℕ) :
    Except AdmissionError (List Claim × ℕ) := do
  let required := judgedHere frame
  checkEvidencePresence required call.evidence node
  let (evidence, spent) ← call.evidence.foldlM (fun (evidence, spent) reference => do
    let (claims, spent) ← resolveClaim S view intent local_ node proven reference spent
    return (evidence ++ claims, spent)) (([] : List Claim), spent)
  judgePresented required evidence node
  return (evidence, spent)

def evaluateExpr (H : Hasher) (E : EvalInputs) (expr : Expr) (envelope : ℕ) :
    Except EvalError (Value × ℕ) := do
  let (cow, meter) ← evalExpr H E [] 0 expr ⟨0, 0, envelope⟩
  let (value, meter) ← forced cow meter
  return (value, meter.envelope)

def evaluateAt (H : Hasher) (E : EvalInputs) (node : ℕ) (expr : Expr) (spent : ℕ) :
    Except AdmissionError (Value × ℕ) :=
  (evaluateExpr H E expr spent).mapError (.eval node)

def resourceAt (node : ℕ) (address : Address) : Except AdmissionError ResourceAddr :=
  (asResource address).mapError (.eval node)

def checkDenominationAt (H : Hasher) (E : EvalInputs) (node : ℕ) (bound : List Value)
    (denomination : Option Expr) (param spent : ℕ) : Except AdmissionError ℕ :=
  match denomination with
  | none => .ok spent
  | some expr => do
    let (value, spent) ← evaluateAt H E node expr spent
    match value with
    | .address address =>
      let expected ← resourceAt node address
      match bound[param]? with
      | some (.bucket resource _) =>
        require (resource = expected) (.wrongDenomination node param expected resource)
        return spent
      | _ => return spent
    | _ => .error (.denominationType node param)

def checkDenominations (H : Hasher) (E : EvalInputs) (node : ℕ) (signature : MethodSignature)
    (bound : List Value) (spent : ℕ) : Except AdmissionError ℕ :=
  signature.denominations.zipIdx.foldlM (fun spent (denomination, param) =>
    checkDenominationAt H E node bound denomination param spent) spent

def projectOutput (H : Hasher) (E : EvalInputs) (node output : ℕ) (expr : Expr) (spent : ℕ) :
    Except AdmissionError ((ResourceAddr × EdgeContent) × ℕ) := do
  let (value, spent) ← evaluateAt H E node expr spent
  match value with
  | .address address => return ((← resourceAt node address, .fungible), spent)
  | .bucket resource content => return ((resource, content), spent)
  | _ => .error (.outputType node output)

def projectOutputs (H : Hasher) (E : EvalInputs) (node : ℕ) (signature : MethodSignature)
    (spent : ℕ) : Except AdmissionError (List (ResourceAddr × EdgeContent) × ℕ) :=
  signature.outputs.zipIdx.foldlM (fun (outputs, spent) (expr, output) => do
    let (edge, spent) ← projectOutput H E node output expr spent
    return (outputs ++ [edge], spent)) (([] : List (ResourceAddr × EdgeContent)), spent)

def leBytes (width n : ℕ) : List ℕ := (List.range width).map fun i => n / 256 ^ i % 256

def guestArg : Value → Option CallArg
  | .u64 n => some (.u64 n)
  | .u128 n => some (.bytes (leBytes 16 n))
  | .u256 n => some (.bytes (leBytes 32 n))
  | .address a => some (.address a)
  | .bytes bs => some (.bytes bs)
  | .list elements =>
    if elements.toList.length > MAX_IDS_PER_EDGE then none
    else (elements.toList.mapM fun (element : Value) =>
      match element with
      | .u64 id => some id
      | _ => none).map .ids
  | .bool b => some (.bool b)
  | .key _ | .bucket _ _ | .tuple _ => none

def siteEntries (signature : MethodSignature) (declaration : Declaration) (clause site : ℕ) :
    Except String (List (Option ℕ)) :=
  match signature.effects[clause]? with
  | none => .error s!"clause {clause} is not declared"
  | some (.forEach _ _ body) =>
    if (body[site]?.map Clause.supports).getD false then
      match declaration.elements clause site with
      | some entries => .ok entries
      | none => .error s!"clause {clause} has no site {site} to run"
    else .error s!"site {site} of clause {clause} materializes nothing"
  | some declared =>
    if declared.supports then
      match declaration.clauseSpans[clause]? with
      | none => .error s!"clause {clause} has no span"
      | some (start, 1) => .ok [some start]
      | some (_, 0) => .ok [none]
      | some (_, len) =>
        .error s!"clause {clause} evaluated to {len} accesses, which no handle names"
    else .error s!"clause {clause} materializes nothing"

def bindSite (signature : MethodSignature) (declaration : Declaration) (clause site offset : ℕ) :
    Except String CallArg := do
  let entries ← siteEntries signature declaration clause site
  let entries ← entries.mapM fun entry =>
    match entry with
    | none => Except.ok none
    | some position =>
      if position + offset < 2 ^ 32 then .ok (some (position + offset))
      else .error "the capability table overflowed"
  return .site entries

def lowerArg (H : Hasher) (E : EvalInputs) (node : ℕ) (signature : MethodSignature)
    (declaration : Declaration) (offset : ℕ) (inputs : List NodeInput) (param : ℕ)
    (binding : AbiParam) (spent : ℕ) : Except AdmissionError (CallArg × ℕ) :=
  let unbindable (reason : String) : AdmissionError := .unbindableAbiParam node param reason
  match binding with
  | .handle clause site => do
    let arg ← (bindSite signature declaration clause site offset).mapError unbindable
    return (arg, spent)
  | .guard clause =>
    match declaration.clauseTaken[clause]? with
    | some taken => .ok (.bool taken, spent)
    | none => .error (unbindable s!"no effect clause {clause} in the signature")
  | .bucket declared =>
    match inputs[declared]? with
    | some (.edge source output _ _ _) => .ok (.bucket source output, spent)
    | some (.literal _) =>
      .error (unbindable s!"input {declared} is a literal, not a value edge")
    | none => .error (unbindable s!"no bound input {declared}")
  | .derived expr => do
    let (value, spent) ← evaluateAt H E node expr spent
    match guestArg value with
    | some arg => return (arg, spent)
    | none =>
      let kind := value.kind.text
      .error (unbindable s!"a {kind} has no guest representation")

def lowerArgs (H : Hasher) (E : EvalInputs) (node : ℕ) (signature : MethodSignature)
    (declaration : Declaration) (offset : ℕ) (inputs : List NodeInput) (spent : ℕ) :
    Except AdmissionError (List CallArg × ℕ) :=
  signature.abi.zipIdx.foldlM (fun (args, spent) (binding, param) => do
    let (arg, spent) ← lowerArg H E node signature declaration offset inputs param binding spent
    return (args ++ [arg], spent)) (([] : List CallArg), spent)

def edgeBounds (inputs : List NodeInput) : List EdgeBound :=
  inputs.zipIdx.filterMap fun (input, param) =>
    match input with
    | .edge source output _ _ bounds => some ⟨source, output, param, bounds⟩
    | .literal _ => none

/-- `Admission`: what one walk threads from node to node. -/
structure Walked where
  edges : Edges
  proven : List (List Claim)
  nodes : List Node
  frames : List (List DeclaredAccess)
  injected : List (List Injected)
  calls : List NodeCall
  origins : List NodeOrigin
  declaration : Declaration
  created : ExtTreeMap EffectTarget ℕ
  tableLen : ℕ
  spent : ℕ

def Walked.start : Walked := ⟨⟨[], []⟩, [], [], [], [], [], [], .empty, ∅, 0, 0⟩

def absences (frame : Declaration) : List EffectTarget :=
  frame.required.filterMap fun rule =>
    match rule with
    | .require (.presence target .absent) => some target
    | _ => none

def writes (frame : Declaration) (target : EffectTarget) : Bool :=
  frame.ordered.any fun access =>
    access.effect.target = target && access.effect.mode.kind = .write

def judgeCreates (created : ExtTreeMap EffectTarget ℕ) (frame : Declaration) (node : ℕ) :
    Except AdmissionError (ExtTreeMap EffectTarget ℕ) := do
  tryAll (fun target =>
    match created[target]? with
    | some creator => .error (.leafCreatedEarlier node creator)
    | none => .ok ()) (absences frame)
  return ((absences frame).filter (writes frame)).foldl (fun created target =>
    created.insert target node) created

def appendInjected (node : ℕ) (injected : List Injected) (frame : Declaration) (spent : ℕ) :
    Except AdmissionError (Declaration × ℕ) :=
  injected.foldlM (fun (frame, spent) requirement => do
    let spent ← spendEnvelope node frame.conditions.length spent
    if frame.required.contains requirement.rule then return (frame, spent)
    else return ({ frame with conditions := frame.conditions ++ [⟨requirement.rule, none⟩] },
      spent))
    (frame, spent)

def inject (signature : MethodSignature) (target : Address) (config : List Value)
    (inputs : List NodeInput) (frame : Declaration) (node spent : ℕ) :
    Except AdmissionError (List IssuanceGrant × List Injected × Declaration × ℕ) := do
  let reaches ← injectReachRules S.grants frame target node
  let (frame, movements) ← injectMovementRules H S.grants frame signature.isVaultDeposit node
  let (issues, issuance) ← injectIssuanceRules H signature target config node
  let (destroyed, destruction) ← injectDestructionRules S.grants signature inputs target node
  let injected := reaches ++ movements ++ issuance ++ destruction
  let (frame, spent) ← appendInjected node injected frame spent
  return (issues ++ destroyed, injected, frame, spent)

def splitConditions (frame : Declaration) (node : ℕ) : List Condition × List (Rule JudgedLeaf) :=
  ((frame.conditions.filter fun c => JudgedLeaf.stage c.rule = .atMaterialization).map fun c =>
      ⟨c.rule, some node⟩,
    (frame.conditions.filter fun c => JudgedLeaf.stage c.rule ≠ .atMaterialization).map (·.rule))

def foldUnion (frame : Declaration) (union : Declaration) : Except AdmissionError Declaration :=
  frame.ordered.foldlM (fun union access =>
    match union.set.insertBounded access.effect (frame.set.widthOf access.effect.target) with
    | some (set, _) => .ok { union with set := set, ordered := union.ordered ++ [access] }
    | none => .error .reserveOverflow) union

structure ResolvedCall where
  record : InstanceMeta
  package : PackageMetadata
  signature : MethodSignature

/-- `resolve_records` and `resolve_signature`. -/
def resolveCall (call : GraphNode) (node : ℕ) : Except AdmissionError ResolvedCall :=
  match S.instance_ call.target with
  | none => .error (.resolve (.unknownInstance call.target.1))
  | some record =>
    match S.chain.package record.package with
    | none => .error (.resolve (.unknownPackage record.package))
    | some package =>
      match package.methods.find? fun p => p.1 = call.method with
      | none => .error (.resolve (.unknownMethod record.package call.method))
      | some (_, signature) => do
        require (!(S.presented call.target.1 && !seals signature))
          (.presentedForCall node call.method)
        require (signature.params.length = call.args.length)
          (.arityMismatch node signature.params.length call.args.length)
        return ⟨record, package, signature⟩

def callInputs (call : GraphNode) (resolved : ResolvedCall) (args : List Value) (node : ℕ) :
    EvalInputs :=
  ⟨call.target.1, args, resolved.record, node, S.identity, resolved.package.slotWidths⟩

structure JudgedFrame where
  evaluated : Declaration
  frame : Declaration
  fence : Option (Rule JudgedLeaf)
  issues : List IssuanceGrant
  injected : List Injected
  spent : ℕ

def judgeFrame (call : GraphNode) (resolved : ResolvedCall) (bound : Bound) (node spent : ℕ) :
    Except AdmissionError JudgedFrame := do
  let E := callInputs S call resolved bound.values node
  let (evaluated, spent) ←
    (evaluateDeclaration H E resolved.signature.effects spent).mapError (.eval node)
  judgePrefixes evaluated call.target.1 node
  let (fenced, fence) ← fence H call.target evaluated
  let (issues, injected, frame, spent) ←
    inject S resolved.signature call.target.1 resolved.record.config bound.inputs fenced node spent
  return ⟨evaluated, frame, fence, issues, injected, spent⟩

def lowerNode (w : Walked) (at_ : ℕ × ℕ) : Except AdmissionError Walked :=
  match (S.intents[at_.1]?).bind fun view => (view.nodes[at_.2]?).map fun call => (view, call) with
  | none => .error .indexPanic
  | some (view, call) => do
    let node := w.nodes.length
    require (node < 2 ^ 32) .tooManyNodes
    let resolved ← resolveCall S call node
    let signature := resolved.signature
    let bound ← bindArgs S view at_.1 at_.2 node call.args signature.params w.edges
    let E := callInputs S call resolved bound.values node
    let spent ← checkDenominations H E node signature bound.values w.spent
    let (outputs, spent) ← projectOutputs H E node signature spent
    let judged ← judgeFrame S call resolved bound node spent
    let (evidence, spent) ←
      resolveEvidence S view at_.1 at_.2 node call judged.frame w.proven judged.spent
    let created ← judgeCreates w.created judged.frame node
    let (conditions, requires) := splitConditions judged.frame node
    let (args, spent) ←
      lowerArgs H E node signature judged.frame w.tableLen bound.inputs spent
    require (w.tableLen + judged.frame.ordered.length < 2 ^ 32) .tableOverflow
    let union ← foldUnion judged.frame
      { w.declaration with
        conditions := w.declaration.conditions ++ conditions ++
          judged.fence.toList.map fun rule => ⟨rule, some node⟩ }
    return {
      edges := ⟨bound.edges.outputs ++ [outputs],
        bound.edges.consumed ++ [outputs.map fun _ => 0]⟩
      proven := w.proven ++ [judged.frame.proves]
      nodes := w.nodes ++ [⟨call.target.1, call.method, bound.inputs, evidence⟩]
      frames := w.frames ++ [judged.frame.ordered]
      injected := w.injected ++ [judged.injected]
      calls := w.calls ++ [{
        package := resolved.record.package
        target := call.target.1
        export_ := call.method
        args := args
        edges := edgeBounds bound.inputs
        outputs := outputs.map (·.2)
        answers := signature.answers
        issues := judged.issues
        evidence := evidence
        requires := requires
        body := if signature.isVaultDeposit then .deposit else .guest }]
      origins := w.origins ++ [.of view.identity at_.2 signature]
      declaration := union
      created := created
      tableLen := w.tableLen + judged.frame.ordered.length
      spent := spent }

def lowerAll (order : List (ℕ × ℕ)) : Except AdmissionError Walked :=
  order.foldlM (lowerNode S) .start

end HyperscaleVm.Effects.Admission

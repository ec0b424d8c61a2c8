import HyperscaleVm.Effects.Admission.Node

/-!
# Admitting the intents of a tree (`effects/src/admission/mod.rs`, `fill.rs`, `order.rs`)
-/

namespace HyperscaleVm.Effects.Admission
open Library

def checkFill (intents : List IntentView) (intent : ℕ) (view : IntentView) (socket : ℕ)
    (fill : Fill) : Except AdmissionError Unit := do
  match fill.waitsOn with
  | some (source, producer) =>
    require ((intents[source]?.map fun view => decide (producer < view.nodes.length)).getD false)
      (.unknownBinding intent socket)
  | none => .ok ()
  match view.sockets[socket]?, fill with
  | some (.value _ _), .value _ _ => .ok ()
  | some (.authority _), .claim _ _ => .ok ()
  | some (.authority _), .account _ => .ok ()
  | some (.value _ _), _ => .error (.socketKindMismatch intent socket "value" "a proof")
  | some (.authority _), _ => .error (.socketKindMismatch intent socket "authority" "an edge")
  | none, _ => .error .indexPanic

def checkBindings (intents : List IntentView) : Except AdmissionError Unit :=
  tryIndexed (fun intent view => do
    require (view.fills.length = view.sockets.length)
      (.bindingArity intent view.sockets.length view.fills.length)
    tryIndexed (checkFill intents intent view) view.fills) intents

structure Interleaved where
  cursor : List ℕ
  flatOf : List (List ℕ)
  order : List (ℕ × ℕ)

def Interleaved.start (intents : List IntentView) : Interleaved :=
  ⟨intents.map fun _ => 0, intents.map fun view => view.nodes.map fun _ => 0, []⟩

def waitsOn (view : IntentView) (node : GraphNode) : List (ℕ × ℕ) :=
  (node.sockets.filterMap fun socket => (view.fills[socket]?).bind Fill.waitsOn) ++
    node.gives.filterMap fun give =>
      (view.give give).map fun produced => (produced.intent, produced.edge.producer)

def Interleaved.ready (s : Interleaved) (candidate : IntentView × ℕ) : Bool :=
  match (s.cursor[candidate.2]?).bind fun next => candidate.1.nodes[next]? with
  | none => false
  | some node => (waitsOn candidate.1 node).all fun (source, producer) =>
    (s.cursor[source]?.map fun emitted => decide (producer < emitted)).getD false

def Interleaved.step (intents : List IntentView) (s : Interleaved) :
    Except AdmissionError Interleaved :=
  match intents.zipIdx.find? s.ready with
  | none => .error .cyclicSockets
  | some (_, index) =>
    let next := s.cursor[index]?.getD 0
    if s.order.length < 2 ^ 32 then
      .ok {
        cursor := s.cursor.modify index (· + 1)
        flatOf := s.flatOf.modify index fun flat => flat.set next s.order.length
        order := s.order ++ [(index, next)] }
    else .error .tooManyNodes

def Interleaved.passes (intents : List IntentView) :
    ℕ → Interleaved → Except AdmissionError Interleaved
  | 0, s => .ok s
  | left + 1, s => do Interleaved.passes intents left (← s.step intents)

def interleave (intents : List IntentView) : Except AdmissionError Interleaved :=
  Interleaved.passes intents (intents.map fun view => view.nodes.length).sum (.start intents)

def signIn (H : Hasher) (declaration : Declaration) (view : IntentView) (account : Address) :
    Except AdmissionError Declaration :=
  let cell := childKey H account AUTH []
  let effect : Effect := ⟨.point cell, .read⟩
  match declaration.set.insertBounded effect MAX_SLOT_WIDTH with
  | none => .error .reserveOverflow
  | some (set, _) => .ok { declaration with
      set := set
      ordered := declaration.ordered ++ [⟨effect, none, none, none⟩]
      conditions := declaration.conditions ++
        [⟨.require (.signed cell (view.attestedBy.map Claim.ofSubject)), none⟩] }

def signIns (H : Hasher) (intents : List IntentView) (declaration : Declaration) :
    Except AdmissionError Declaration :=
  (intents.flatMap fun view => view.accounts.map fun account => (view, account)).foldlM
    (fun declaration (view, account) => signIn H declaration view account) declaration

def checkLinear (consumed : List (List ℕ)) : Except AdmissionError Unit :=
  tryIndexed (fun producer counts => tryIndexed (fun output count =>
    require (count ≠ 0) (.unconsumedOutput producer output)) counts) consumed

structure Admitted where
  nodes : List Node
  identity : ℕ
  frames : List (List DeclaredAccess)
  injected : List (List Injected)
  calls : List NodeCall
  declaration : Declaration
  origins : List NodeOrigin

def admitIntents (H : Hasher) (V : Envelope) : Except AdmissionError Admitted := do
  checkBindings V.intents
  let interleaved ← interleave V.intents
  let w ← lowerAll (H := H) ⟨V, interleaved.flatOf⟩ interleaved.order
  let declaration ← signIns H V.intents w.declaration
  checkLinear w.edges.consumed
  return ⟨w.nodes, V.identity, w.frames, w.injected, w.calls, declaration, w.origins⟩

end HyperscaleVm.Effects.Admission

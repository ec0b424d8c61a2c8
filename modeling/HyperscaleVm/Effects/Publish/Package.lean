import HyperscaleVm.Effects.Publish.Abi

/-!
# Coherence: what the whole metadata has to answer (`effects/src/publish/package.rs`)
-/

namespace HyperscaleVm.Effects.Publish
open Library
open Std (ExtTreeMap)

def MAX_EVENT_PAYLOAD_BYTES : ℕ := 4096
def EVENT_FRAME_BYTES : ℕ := 38
def MAX_EVENT_BYTES_PER_TX : ℕ := 64 * 1024
def MAX_EVENT_TYPES : ℕ := 1024
def MAX_ERROR_CODES : ℕ := 1024

/-- What the gate reads of a table of type shapes (`hbor/src/shape.rs`): the types it
names, the widest encoding of a node, whether a node is there, and whether a name is the
protocol's and the node its shape. -/
structure ShapeTable where
  names : List (String × ℕ)
  most : ℕ → ℕ
  has : ℕ → Bool
  reserved : String → ℕ → Option Bool

def ShapeTable.named (types : ShapeTable) (name : String) : Option ℕ :=
  (types.names.find? fun p => p.1 = name).map Prod.snd

structure SlotShape where
  element : ℕ
  width : ℕ

structure PackageMetadata where
  methods : List (String × MethodSignature)
  events : List String
  errors : List String
  types : ShapeTable
  config : List String
  state : List (SlotId × SlotShape)

/-- Methods and nothing else. -/
def PackageMetadata.ofMethods (methods : List (String × MethodSignature)) : PackageMetadata :=
  ⟨methods, [], [], ⟨[], fun _ => 0, fun _ => false, fun _ _ => none⟩, [], []⟩

def PackageMetadata.slotWidths (metadata : PackageMetadata) : SlotWidths :=
  metadata.state.foldl (fun widths p => widths.insert p.1 p.2.width) ∅

inductive MetadataError where
  | eventTable (len : ℕ)
  | eventBytesUndeclared
  | eventBytesWithoutEvents
  | eventBytesTooHigh (bytes : ℕ)
  | emitsUnknownEvent (method : String) (index : ℕ)
  | eventBytesDisagrees (method : String) (declared derived : ℕ)
  | eventPayloadTooWide (name : String) (bound : ℕ)
  | typeTooWide (name : String) (bound : ℕ)
  | errorTable (len : ℕ)
  | configTable (len : ℕ)
  | method (name : String) (source : PlacedBounds)
  | slotWidthTooWide (slot width : ℕ)
  | slotWidthDisagrees (slot width derived : ℕ)
  | eventWithoutShape (name : String)
  | eventNamedTwice (name : String)
  | slotOutsideBand (slot : ℕ)
  | slotHoldsTwoThings (slot : ℕ) (denominating plain : String)
  | slotUnresolved (slot element : ℕ)
  | reservedType (name : String)

def eventBytes (metadata : PackageMetadata) (name : String) : Except MetadataError ℕ :=
  match metadata.types.named name with
  | none => .error (.eventWithoutShape name)
  | some shape =>
    let bound := metadata.types.most shape
    if bound > MAX_EVENT_PAYLOAD_BYTES then .error (.eventPayloadTooWide name bound)
    else .ok (EVENT_FRAME_BYTES + bound)

def checkEmits (metadata : PackageMetadata) (name : String) (signature : MethodSignature) :
    Except MetadataError (List String) :=
  signature.emits.foldlM (fun seen index =>
    match metadata.events[index]? with
    | none => .error (.emitsUnknownEvent name index)
    | some event =>
      if event ∈ seen then .error (.emitsUnknownEvent name index) else .ok (seen ++ [event])) []

def checkMethodEvents (metadata : PackageMetadata) (name : String) (signature : MethodSignature) :
    Except MetadataError Unit := do
  let events ← checkEmits metadata name signature
  let derived ← events.foldlM (fun total event => do
    return total + (← eventBytes metadata event)) 0
  require (derived ≤ MAX_EVENT_BYTES_PER_TX) (.eventBytesTooHigh derived)
  require (signature.eventBytes = derived) (.eventBytesDisagrees name signature.eventBytes derived)

def checkEventBounds (metadata : PackageMetadata) : Except MetadataError Unit := do
  tryAll (fun p => checkMethodEvents metadata p.1 p.2) metadata.methods
  match metadata.events.isEmpty, metadata.methods.any fun p => !p.2.emits.isEmpty with
  | false, false => .error .eventBytesUndeclared
  | true, true => .error .eventBytesWithoutEvents
  | _, _ => .ok ()

def checkTableCaps (metadata : PackageMetadata) : Except MetadataError Unit := do
  require (metadata.events.length ≤ MAX_EVENT_TYPES) (.eventTable metadata.events.length)
  require (metadata.errors.length ≤ MAX_ERROR_CODES) (.errorTable metadata.errors.length)
  require (metadata.config.length ≤ MAX_CONFIG_FIELDS) (.configTable metadata.config.length)

def checkTypes (metadata : PackageMetadata) : Except MetadataError Unit :=
  tryAll (fun (p : String × ℕ) => do
    require (metadata.types.most p.2 ≤ MAX_SLOT_WIDTH) (.typeTooWide p.1 (metadata.types.most p.2))
    require ((metadata.types.reserved p.1 p.2).getD true) (.reservedType p.1)) metadata.types.names

def checkSlotShape (metadata : PackageMetadata) (slot : SlotId) (declared : SlotShape) :
    Except MetadataError Unit := do
  require (PACKAGE_SLOT_BASE ≤ slot && slot < KERNEL_SLOT_BASE) (.slotOutsideBand slot)
  require (declared.width ≤ MAX_SLOT_WIDTH) (.slotWidthTooWide slot declared.width)
  require (metadata.types.has declared.element) (.slotUnresolved slot declared.element)
  let derived := min (metadata.types.most declared.element) (2 ^ 32 - 1)
  require (derived = declared.width) (.slotWidthDisagrees slot declared.width derived)

inductive Numbered where
  | cell (slot : SlotId)
  | entries (slot : SlotId)
  deriving DecidableEq

namespace Numbered

def slot : Numbered → SlotId
  | .cell slot | .entries slot => slot

def bytes : Numbered → List ℕ
  | .cell slot => [0, slot]
  | .entries slot => [1, slot]

theorem bytes_injective : Function.Injective bytes := by
  intro a b h
  cases a <;> cases b <;> simp_all [bytes]

instance : LinearOrder Numbered := LinearOrder.lift' bytes bytes_injective

end Numbered

def numbered (target : TargetExpr) : Option Numbered := do
  let (slot, _) ← slotOf target
  let slot ← slot.isFixed
  match target with
  | .point _ => some (.cell slot)
  | .entry _ _ _ _ | .range _ _ _ _ _ _ => some (.entries slot)

def answer : Clause → Option (Numbered × Bool)
  | .effect _ target _ denomination none => (numbered target).map fun n => (n, denomination.isSome)
  | _ => none

def sayFirst (said : ExtTreeMap Numbered Bool) (clause : Clause) : ExtTreeMap Numbered Bool :=
  match answer clause with
  | some (n, holds) => said.insertIfNew n holds
  | none => said

def firstAnswers (signature : MethodSignature) : ExtTreeMap Numbered Bool :=
  signature.flat.foldl sayFirst ∅

def compareAnswer (method : String) (answered : ExtTreeMap Numbered (Bool × String))
    (entry : Numbered × Bool) : Except MetadataError (ExtTreeMap Numbered (Bool × String)) :=
  match answered[entry.1]? with
  | none => .ok (answered.insert entry.1 (entry.2, method))
  | some (said, first) =>
    if said = entry.2 then .ok answered
    else if said then .error (.slotHoldsTwoThings entry.1.slot first method)
    else .error (.slotHoldsTwoThings entry.1.slot method first)

/-- `check_slot_contents`, with the answers it collects. -/
def checkSlotContents (methods : List (String × MethodSignature)) :
    Except MetadataError (ExtTreeMap Numbered (Bool × String)) :=
  methods.foldlM (fun answered p => (firstAnswers p.2).toList.foldlM (compareAnswer p.1) answered) ∅

def checkTableAgreement (metadata : PackageMetadata) : Except MetadataError Unit := do
  tryIndexed (fun index name => do
    require (metadata.types.named name).isSome (.eventWithoutShape name)
    require (!(metadata.events.take index).contains name) (.eventNamedTwice name)) metadata.events
  checkTypes metadata
  tryAll (fun p => checkSlotShape metadata p.1 p.2) metadata.state
  let _ ← checkSlotContents metadata.methods
  return ()

def checkMetadata (metadata : PackageMetadata) : Except MetadataError Unit := do
  checkTableCaps metadata
  tryAll (fun p => (checkSignatureBounds p.2).mapError (.method p.1)) metadata.methods
  checkTableAgreement metadata
  checkEventBounds metadata

end HyperscaleVm.Effects.Publish

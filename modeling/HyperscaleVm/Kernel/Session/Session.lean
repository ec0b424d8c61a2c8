import HyperscaleVm.Kernel.Session.Accounts

/-!
# The session (`kernel/src/session.rs`)

A session is built from a declaration: a capability for each declared access, a
site for each handle parameter naming positions of that table, and the operations
a body reaches the store by. A refusal aborts the transaction, so an operation is
modelled by what it leaves where it answers.
-/

namespace HyperscaleVm.Kernel
open Effects
open Effects.Admission (IssuanceGrant)
open Effects.Placement (CrossingId)
open Library
open Std (ExtTreeMap)

/-- The encodings the kernel writes and reads cells in, and the protocol hash. -/
structure Codec where
  spent : TxHash → ℕ → ℕ → Bytes
  record : CrossingId → TxHash → Crossed → ℕ → Terms → Bytes
  answer : CrossingId → TxHash → Answered → ℕ → Bytes
  answerValues : CrossingId → TxHash → ℕ → Answered → List Bytes
  authAdmits : Address → Option Bytes → List Claim → Bool
  ruleAdmits : Bytes → List Claim → Bool
  keyBytes : SubstateKey → Bytes
  hash : Bytes → Bytes

inductive Drawn where
  | pending
  | ready (word : Bytes)
  | expired
  deriving DecidableEq

/-- `EnvInputs`, with the seeds a draw may settle on and the newest epoch folded. -/
structure EnvInputs where
  clockMs : ℕ
  epoch : ℕ
  usable : ℕ → Option Bytes
  newest : Option ℕ

/-- `SeedWindow::at`. -/
def EnvInputs.seedAt (env : EnvInputs) (epoch : ℕ) : Drawn :=
  match env.usable epoch with
  | some seed => .ready seed
  | none =>
    match env.newest with
    | some newest => if epoch ≤ newest then .expired else .pending
    | none => .pending

structure FeeBurn where
  vault : SubstateKey
  resource : ResourceAddr
  amount : ℕ
  deriving DecidableEq

abbrev OwnerSet := Address → Bool

def OwnerSet.whole : OwnerSet := fun _ => true

def FeeBurn.endsHold (fee : FeeBurn) (applies : OwnerSet) : Bool := applies fee.vault.owner

structure IntentRecord where
  intent : ℕ
  nullifiers : List SubstateKey
  expiryMs : ℕ

structure Event where
  emitter : Address
  eventType : ℕ
  payload : Bytes

def MAX_EVENT_TYPES : ℕ := 1024
def MAX_EVENTS_PER_TX : ℕ := 256
def MAX_EVENT_PAYLOAD_BYTES : ℕ := 4096
def MAX_EVENT_BYTES_PER_TX : ℕ := 64 * 1024
def EVENT_FRAME_BYTES : ℕ := 38

def ABSENT_REP : ℕ := 2 ^ 32 - 1

structure Scan where
  entries : List (ℕ × Bytes)
  covered : Option Bool

structure Ranges where
  scans : ℕ × ℕ → Option Scan
  written : ℕ → Finset ℕ

def Ranges.new : Ranges := ⟨fun _ => none, fun _ => ∅⟩

/-- `KernelSession`. -/
structure Session where
  store : OverlayStore
  declared : EffectSet
  table : List Capability
  cellResources : List (Option ResourceAddr)
  tx : TxHash
  env : EnvInputs
  codec : Codec
  applies : OwnerSet
  judges : OwnerSet
  nullifiers : List IntentRecord
  fee : Option FeeBurn
  creditsWithheld : Bool
  ranges : Ranges
  invocation : Option Address
  events : List Event
  eventBound : ℕ
  nodeCarried : ℕ
  eventsCarried : ℕ
  buckets : Buckets
  supply : SupplyDelta
  escrow : EscrowDelta
  crossings : ExtTreeMap SubstateKey Bytes
  issuance : List IssuanceGrant
  entries : List (Option ℕ)
  sites : List (ℕ × ℕ)
  reach : Reach
  taken : Finset ℕ

namespace Session

variable (s : Session)

/-- Existence is judged before reach. -/
def site (rep : ℕ) : Except SessionTrap (List (Option ℕ)) :=
  match s.sites[rep]? with
  | none => .error (.unknownHandle rep)
  | some (start, len) =>
    if !s.reach.holds rep then .error (.outsideFrame rep)
    else if start + len ≤ s.entries.length then .ok ((s.entries.drop start).take len)
    else .error (.unknownHandle rep)

def entry (rep index : ℕ) : Except SessionTrap (Option ℕ) :=
  if rep = ABSENT_REP then .error .undeclaredBranch
  else do
    let entries ← s.site rep
    match entries[index]? with
    | some found => .ok found
    | none => .error (.indexOutOfBounds index entries.length)

def repAt (site element : ℕ) : Except SessionTrap ℕ := do
  match ← s.entry site element with
  | some rep => .ok rep
  | none => .error .undeclaredBranch

/-- `at`: the capability one element of a site names. -/
def capabilityAt (site element : ℕ) : Except SessionTrap Capability := do
  let rep ← s.repAt site element
  match s.table[rep]? with
  | some held => .ok held
  | none => .error (.unknownHandle rep)

/-- The one place permission is decided. -/
def acting (site element : ℕ) (attempted : Op) : Except SessionTrap Capability := do
  let held ← s.capabilityAt site element
  if !s.judges held.owner then .error (.outsideScope site element held)
  else if grants held attempted then .ok held
  else .error (.ungranted site element held attempted)

def actingKey (site element : ℕ) (attempted : Op) : Except SessionTrap SubstateKey := do
  let held ← s.acting site element attempted
  match held.key with
  | some key => .ok key
  | none => .error (.ungranted site element held attempted)

def resourceAt (rep : ℕ) : Option ResourceAddr := (s.cellResources[rep]?).getD none

def valueOf (site element : ℕ) : Except SessionTrap ResourceAddr :=
  match s.entry site element with
  | .ok (some rep) =>
    match s.resourceAt rep with
    | some resource => .ok resource
    | none => .error (.bytesAsValue site element)
  | _ => .error (.bytesAsValue site element)

def judgeCredit (site element funds : ℕ) : Except SessionTrap Unit := do
  let cell ← s.valueOf site element
  let carried ← s.buckets.resourceOf funds
  if cell = carried then .ok () else .error (.wrongResource cell carried)

def checkValueLen (length width : ℕ) : Except SessionTrap Unit :=
  if length > width then .error (.cellValueTooLarge length width) else .ok ()

def enterInvocation (emitter : Address) (eventBytes : ℕ) : Session :=
  { s with
    invocation := some emitter
    eventBound := eventBytes
    nodeCarried := 0
    issuance := []
    reach := s.reach.enter
    buckets := s.buckets.enterFrame }

def leaveInvocation : Session :=
  { s with
    invocation := none
    issuance := []
    reach := s.reach.leave
    buckets := s.buckets.leaveFrame }

/-- Binding is lending. -/
def bindSite (entries : List (Option ℕ)) : Session × ℕ :=
  ({ s with
     entries := s.entries ++ entries
     sites := s.sites ++ [(s.entries.length, entries.length)]
     reach := s.reach.lend s.sites.length }, s.sites.length)

def lendBucket (rep : ℕ) : Session := { s with buckets := s.buckets.lend rep }

def grantIssuance (grants : List IssuanceGrant) : Session := { s with issuance := grants }

def siteLen (rep : ℕ) : Except SessionTrap ℕ := do return (← s.site rep).length

def siteDeclared (rep index : ℕ) : Except SessionTrap Bool := do
  return (← s.entry rep index).isSome

def readCell (key : SubstateKey) : Session × Option Bytes :=
  ({ s with store := (s.store.read key).1 }, (s.store.read key).2)

def declaredCell (key : SubstateKey) : Session × Bytes :=
  let (s, cell) := s.readCell key
  (s, cell.getD [])

def cellGet (site element : ℕ) : Except SessionTrap (Session × Bytes) := do
  let key ← s.actingKey site element .read
  return s.declaredCell key

def writeCellSet (site element : ℕ) (value : Bytes) : Except SessionTrap Session := do
  let key ← s.actingKey site element .write
  checkValueLen value.length (s.declared.widthOf (.point key))
  return { s with store := s.store.write key value }

def writeCellClear (site element : ℕ) : Except SessionTrap Session := do
  let key ← s.actingKey site element .clear
  return { s with store := (s.store.remove key).1 }

def SEAL_TAG : UInt8 := 0x5E
def SEAL_MATURITY_EPOCHS : ℕ := 2
def DOMAIN_SEALED_DRAW : Bytes := "hyperscale/vm/sealed-draw".toUTF8.toList

/-- The tag and eight little-endian bytes. -/
def sealedEpoch (site : ℕ) (held : Bytes) : Except SessionTrap ℕ :=
  match held with
  | tag :: epoch =>
    if tag = SEAL_TAG ∧ epoch.length = 8 then .ok (ofLeBytes epoch) else .error (.notASeal site)
  | [] => .error (.notASeal site)

def sealBytes (epoch : ℕ) : Bytes := SEAL_TAG :: leBytes 8 epoch

def maturedSeed (env : EnvInputs) (epoch : ℕ) : Drawn :=
  env.seedAt (min (epoch + SEAL_MATURITY_EPOCHS) (2 ^ 64 - 1))

def mayReseal (env : EnvInputs) (site : ℕ) (cell : Option Bytes) : Except SessionTrap Unit :=
  match cell with
  | none => .ok ()
  | some held => do
    let epoch ← sealedEpoch site held
    if maturedSeed env epoch = .expired then .ok () else .error (.sealStanding site)

/-- `seal`. -/
def sealCell (site element : ℕ) : Except SessionTrap Session := do
  let key ← s.actingKey site element .seal
  let (s, cell) := s.readCell key
  mayReseal s.env site cell
  return { s with store := s.store.write key (sealBytes s.env.epoch) }

/-- The seed the seal matured into, put through the cell's own key. -/
def openSeal (site element : ℕ) : Except SessionTrap (Session × Drawn) := do
  let key ← s.actingKey site element .openSeal
  let (s, held) := s.declaredCell key
  let epoch ← sealedEpoch site held
  match maturedSeed s.env epoch with
  | .ready seed =>
    return (s, .ready (s.codec.hash (DOMAIN_SEALED_DRAW ++ seed ++ s.codec.keyBytes key)))
  | unopened => return (s, unopened)

def emit (eventType : ℕ) (payload : Bytes) : Except SessionTrap Session :=
  match s.invocation with
  | none => .error .noInvocation
  | some emitter => do
    let kept := EVENT_FRAME_BYTES + payload.length
    require (eventType < MAX_EVENT_TYPES) (.eventTypeOutOfRange eventType)
    require (payload.length ≤ MAX_EVENT_PAYLOAD_BYTES) (.eventPayloadTooLarge payload.length)
    require (s.events.length < MAX_EVENTS_PER_TX) .tooManyEvents
    require (s.nodeCarried + kept ≤ s.eventBound) (.eventBytesExceeded s.eventBound)
    require (s.eventsCarried + kept ≤ MAX_EVENT_BYTES_PER_TX)
      (.eventBytesExceeded MAX_EVENT_BYTES_PER_TX)
    return { s with
      nodeCarried := s.nodeCarried + kept
      eventsCarried := s.eventsCarried + kept
      events := s.events ++ [⟨emitter, eventType, payload⟩] }

end Session

end HyperscaleVm.Kernel

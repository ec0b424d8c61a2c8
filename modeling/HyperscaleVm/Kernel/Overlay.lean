import HyperscaleVm.Kernel.Store

/-!
# The overlay store (`kernel/src/overlay.rs`)
-/

namespace HyperscaleVm.Kernel
open Library
open Std (ExtTreeMap)

/-- One overlay layer; a change to `none` is a tombstone. -/
structure Layer where
  cells : ExtTreeMap SubstateKey (Option Bytes)
  entries : ExtTreeMap EntryKey (Option Bytes)
  pendingDeltas : ExtTreeMap SubstateKey (List DeltaOp)
  held : SubstateKey → ExtTreeMap TxHash (Option ℕ)
  feeHeld : SubstateKey → ExtTreeMap TxHash (Option ℕ)
  withheld : SubstateKey → ExtTreeMap TxHash ℕ

def Layer.empty : Layer := ⟨∅, ∅, ∅, fun _ => ∅, fun _ => ∅, fun _ => ∅⟩

structure OverlayStore where
  base : Baseline
  committed : Layer
  active : Layer
  log : List Access

def extendQueues (m changes : ExtTreeMap SubstateKey (List DeltaOp)) :
    ExtTreeMap SubstateKey (List DeltaOp) :=
  changes.toList.foldl (fun m p => pushDelta m p.1 p.2) m

def Layer.applyTo (layer : Layer) (s : MemoryStore) : MemoryStore where
  cells := applyChanges s.cells layer.cells
  entries := applyChanges s.entries layer.entries
  pendingDeltas := extendQueues s.pendingDeltas layer.pendingDeltas
  held key := applyChanges (s.held key) (layer.held key)
  feeHeld key := ⟨applyChanges (s.feeHeld key).members (layer.feeHeld key), (s.feeHeld key).rest⟩
  withheld key := extend (s.withheld key) (layer.withheld key)

namespace OverlayStore

def new (base : Baseline) : OverlayStore := ⟨base, .empty, .empty, []⟩

variable (o : OverlayStore)

def record (target : EffectTarget) (kind : ModeKind) : OverlayStore :=
  { o with log := o.log ++ [⟨target, kind⟩] }

/-- Active over committed over base. -/
def cellValue (key : SubstateKey) : Option Bytes :=
  match o.active.cells[key]? with
  | some change => change
  | none =>
    match o.committed.cells[key]? with
    | some change => change
    | none => o.base.ledger.cell key

def preActiveCell (key : SubstateKey) : Option Bytes :=
  match o.committed.cells[key]? with
  | some change => change
  | none => o.base.ledger.cell key

def preActiveEntry (key : EntryKey) : Option Bytes :=
  match o.committed.entries[key]? with
  | some change => change
  | none =>
    ((o.base.entriesInRange key.owner key.collection key.order key.order 1).head?).map Prod.snd

def entryValue (key : EntryKey) : Option Bytes :=
  match o.active.entries[key]? with
  | some change => change
  | none => o.preActiveEntry key

def effectiveHolds (key : SubstateKey) : ExtTreeMap TxHash ℕ :=
  applyChanges (applyChanges (o.base.ledger.holds key) (o.committed.held key)) (o.active.held key)

/-- No layer moves what no member ends. -/
def effectiveFeeHolds (key : SubstateKey) : FeeHolds :=
  let standing := o.base.ledger.feeHolds key
  ⟨applyChanges (applyChanges standing.members (o.committed.feeHeld key)) (o.active.feeHeld key),
    standing.rest⟩

def effectiveWithheldCredits (key : SubstateKey) : WithheldCredits :=
  extend (extend (o.base.ledger.withheldCredits key) (o.committed.withheld key))
    (o.active.withheld key)

/-- `held_reservation`, layer by layer. -/
def heldReservation (key : SubstateKey) (tx : TxHash) : Option ℕ :=
  match (o.active.held key)[tx]? with
  | some change => change
  | none =>
    match (o.committed.held key)[tx]? with
    | some change => change
    | none => (o.base.ledger.holds key)[tx]?

def pendingMap : ExtTreeMap SubstateKey (List DeltaOp) :=
  extendQueues o.committed.pendingDeltas o.active.pendingDeltas

def nextIf {β : Type} (order : ℕ) : List (ℕ × β) → Option β × List (ℕ × β)
  | [] => (none, [])
  | (candidate, value) :: rest =>
    if candidate = order then (some value, rest) else (none, (candidate, value) :: rest)

def nextOrder (active committed : List (ℕ × Option Bytes)) (base : List (ℕ × Bytes)) : Option ℕ :=
  ([active.head?.map Prod.fst, committed.head?.map Prod.fst, base.head?.map Prod.fst].filterMap
    id).min?

/-- The merge: at each order the topmost layer that mentions it wins, and a tombstone drops
the entry without counting. `steps` bounds the entries still to consume. -/
def mergeLoop : ℕ → ℕ → List (ℕ × Option Bytes) → List (ℕ × Option Bytes) → List (ℕ × Bytes) →
    List (ℕ × Bytes)
  | 0, _, _, _, _ => []
  | _, 0, _, _, _ => []
  | steps + 1, limit + 1, active, committed, base =>
    match nextOrder active committed base with
    | none => []
    | some order =>
      let (activeHit, active) := nextIf order active
      let (committedHit, committed) := nextIf order committed
      let (baseHit, base) := nextIf order base
      match (activeHit.or committedHit).getD baseHit with
      | some value => (order, value) :: mergeLoop steps limit active committed base
      | none => mergeLoop steps (limit + 1) active committed base

def tombstones (run : List (ℕ × Option Bytes)) : ℕ := run.countP fun p => p.2.isNone

def mergedEntries (owner : Address) (collection lo hi limit : ℕ) : List (ℕ × Bytes) :=
  if lo > hi ∨ limit = 0 then []
  else
    let active := scan o.active.entries owner collection lo hi
    let committed := scan o.committed.entries owner collection lo hi
    let base := o.base.entriesInRange owner collection lo hi
      (limit + (tombstones committed + tombstones active))
    mergeLoop (active.length + committed.length + base.length) limit active committed base

def view : LedgerView :=
  ⟨o.cellValue, o.effectiveHolds, o.effectiveFeeHolds, o.effectiveWithheldCredits⟩

def toBaseline : Baseline := ⟨o.view, o.mergedEntries⟩

def read (key : SubstateKey) : OverlayStore × Option Bytes :=
  (o.record (.point key) .read, o.cellValue key)

def entriesInRange (owner : Address) (collection lo hi cap : ℕ) :
    OverlayStore × List (ℕ × Bytes) :=
  (o.record (.range owner collection lo hi cap) .read, o.mergedEntries owner collection lo hi cap)

def write (key : SubstateKey) (value : Bytes) : OverlayStore :=
  { o.record (.point key) .write with
    active := { o.active with cells := o.active.cells.insert key (some value) } }

def remove (key : SubstateKey) : OverlayStore × Option Bytes :=
  ({ o.record (.point key) .write with
    active := { o.active with cells := o.active.cells.insert key none } }, o.cellValue key)

def queueDelta (key : SubstateKey) (op : DeltaOp) : OverlayStore :=
  { o.record (.point key) .delta with
    active := { o.active with pendingDeltas := pushDelta o.active.pendingDeltas key [op] } }

def entryWrite (key : EntryKey) (value : Bytes) : OverlayStore :=
  { o.record (.entry key.owner key.collection key.order) .write with
    active := { o.active with entries := o.active.entries.insert key (some value) } }

def entryRemove (key : EntryKey) : OverlayStore × Option Bytes :=
  ({ o.record (.entry key.owner key.collection key.order) .write with
    active := { o.active with entries := o.active.entries.insert key none } }, o.entryValue key)

def setAmount (key : SubstateKey) (amount : ℕ) : OverlayStore :=
  { o with active := { o.active with cells := o.active.cells.insert key (amountCell amount) } }

def setHold (key : SubstateKey) (tx : TxHash) (amount : Option ℕ) : OverlayStore :=
  { o with active := { o.active with
      held := Function.update o.active.held key ((o.active.held key).insert tx amount) } }

def setFeeHold (key : SubstateKey) (tx : TxHash) (amount : Option ℕ) : OverlayStore :=
  { o with active := { o.active with
      feeHeld := Function.update o.active.feeHeld key ((o.active.feeHeld key).insert tx amount) } }

def withholdCredit (key : SubstateKey) (tx : TxHash) (amount : ℕ) : OverlayStore :=
  { o with active := { o.active with
      withheld :=
        Function.update o.active.withheld key ((o.active.withheld key).insert tx amount) } }

def holdUnjudged (key : SubstateKey) (tx : TxHash) (amount : ℕ) : OverlayStore :=
  (o.record (.point key) .reserve).setHold key tx (some amount)

def retainPendingDeltas (keep : SubstateKey → Bool) : OverlayStore :=
  { o with
    active := { o.active with
      pendingDeltas := o.active.pendingDeltas.filter fun key _ => keep key }
    committed := { o.committed with
      pendingDeltas := o.committed.pendingDeltas.filter fun key _ => keep key } }

def clearQueued : OverlayStore :=
  { o with
    active := { o.active with pendingDeltas := ∅ }
    committed := { o.committed with pendingDeltas := ∅ } }

def clearLog : OverlayStore := { o with log := [] }

instance : AmountLedger OverlayStore where
  view := view
  setAmount := setAmount
  setHold := setHold
  setFeeHold := setFeeHold
  withholdCredit := withholdCredit
  note := record
  queued := pendingMap
  clearQueued := clearQueued

def mergeActive : OverlayStore :=
  { o with
    committed := {
      cells := extend o.committed.cells o.active.cells
      entries := extend o.committed.entries o.active.entries
      pendingDeltas := extendQueues o.committed.pendingDeltas o.active.pendingDeltas
      held := fun key => extend (o.committed.held key) (o.active.held key)
      feeHeld := fun key => extend (o.committed.feeHeld key) (o.active.feeHeld key)
      withheld := fun key => extend (o.committed.withheld key) (o.active.withheld key) }
    active := .empty }

def discardActive : OverlayStore := { o with active := .empty }

def collapseOnto (s : MemoryStore) : MemoryStore := o.active.applyTo (o.committed.applyTo s)

end OverlayStore

end HyperscaleVm.Kernel

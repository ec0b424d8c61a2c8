import HyperscaleVm.Kernel.Ledger
import HyperscaleVm.Kernel.Oracle

/-!
# State surfaces and the plain store (`kernel/src/store.rs`)

`Baseline` is committed state as an overlay reads it, by its answers alone.
-/

namespace HyperscaleVm.Kernel
open Std (ExtTreeMap)

/-- `Baseline`, over `Substates`: the answers of a committed state. -/
structure Baseline where
  ledger : LedgerView
  entriesInRange : Address → ℕ → ℕ → ℕ → ℕ → List (ℕ × Bytes)

def scan {β : Type} (entries : ExtTreeMap EntryKey β) (owner : Address) (collection lo hi : ℕ) :
    List (ℕ × β) :=
  entries.toList.filterMap fun (key, value) =>
    if key.owner = owner ∧ key.collection = collection ∧ lo ≤ key.order ∧ key.order ≤ hi then
      some (key.order, value)
    else none

structure MemoryStore where
  cells : ExtTreeMap SubstateKey Bytes
  entries : ExtTreeMap EntryKey Bytes
  pendingDeltas : ExtTreeMap SubstateKey (List DeltaOp)
  held : SubstateKey → ExtTreeMap TxHash ℕ
  feeHeld : SubstateKey → FeeHolds
  withheld : SubstateKey → WithheldCredits

def pushDelta (pending : ExtTreeMap SubstateKey (List DeltaOp)) (key : SubstateKey)
    (ops : List DeltaOp) : ExtTreeMap SubstateKey (List DeltaOp) :=
  pending.insert key (pending[key]?.getD [] ++ ops)

namespace MemoryStore

def new : MemoryStore := ⟨∅, ∅, ∅, fun _ => ∅, fun _ => .none, fun _ => ∅⟩

def view (s : MemoryStore) : LedgerView := ⟨fun key => s.cells[key]?, s.held, s.feeHeld, s.withheld⟩

def entriesInRange (s : MemoryStore) (owner : Address) (collection lo hi limit : ℕ) :
    List (ℕ × Bytes) :=
  if lo > hi then [] else (scan s.entries owner collection lo hi).take limit

def toBaseline (s : MemoryStore) : Baseline := ⟨s.view, s.entriesInRange⟩

def setAmount (s : MemoryStore) (key : SubstateKey) (amount : ℕ) : MemoryStore :=
  { s with cells := Library.applyChange s.cells (key, amountCell amount) }

def setHold (s : MemoryStore) (key : SubstateKey) (tx : TxHash) (amount : Option ℕ) : MemoryStore :=
  { s with held := Function.update s.held key (changeHold (s.held key) tx amount) }

def setFeeHold (s : MemoryStore) (key : SubstateKey) (tx : TxHash) (amount : Option ℕ) :
    MemoryStore :=
  let standing := s.feeHeld key
  { s with feeHeld :=
      Function.update s.feeHeld key ⟨changeHold standing.members tx amount, standing.rest⟩ }

def withholdCredit (s : MemoryStore) (key : SubstateKey) (tx : TxHash) (amount : ℕ) : MemoryStore :=
  { s with withheld := Function.update s.withheld key ((s.withheld key).insert tx amount) }

instance : AmountLedger MemoryStore where
  view := view
  setAmount := setAmount
  setHold := setHold
  setFeeHold := setFeeHold
  withholdCredit := withholdCredit
  note s _ _ := s
  queued s := s.pendingDeltas
  clearQueued s := { s with pendingDeltas := ∅ }

instance : LawfulAmountLedger MemoryStore where
  view_setAmount s key amount := by
    simp only [AmountLedger.view, AmountLedger.setAmount, view, setAmount, LedgerView.setAmount,
      LedgerView.mk.injEq, and_true]
    funext key'
    rw [Library.getElem?_applyChange]
    by_cases h : key' = key
    · subst h
      simp
    · simp [h, Ne.symm h]
  view_setHold _ _ _ _ := rfl
  view_setFeeHold _ _ _ _ := rfl
  view_withholdCredit _ _ _ _ := rfl
  view_note _ _ _ := rfl
  view_clearQueued _ := rfl

def write (s : MemoryStore) (key : SubstateKey) (value : Bytes) : MemoryStore :=
  { s with cells := s.cells.insert key value }

def remove (s : MemoryStore) (key : SubstateKey) : MemoryStore :=
  { s with cells := s.cells.erase key }

def queueDelta (s : MemoryStore) (key : SubstateKey) (op : DeltaOp) : MemoryStore :=
  { s with pendingDeltas := pushDelta s.pendingDeltas key [op] }

def entryWrite (s : MemoryStore) (key : EntryKey) (value : Bytes) : MemoryStore :=
  { s with entries := s.entries.insert key value }

def entryRemove (s : MemoryStore) (key : EntryKey) : MemoryStore :=
  { s with entries := s.entries.erase key }

end MemoryStore

end HyperscaleVm.Kernel

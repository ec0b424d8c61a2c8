import HyperscaleVm.Kernel.Rows
import HyperscaleVm.Kernel.Session.Receipt
import HyperscaleVm.Library.KeyedFold

/-!
# Applying a completed receipt (`executor.rs`, `apply_completed`)
-/

namespace HyperscaleVm.Kernel
open AmountLedger Library
open Std (ExtTreeMap)

/-- `BatchError`; the last two are its panics. -/
inductive BatchError where
  | duplicateTx (tx : TxHash)
  | unavailable (tx : TxHash) (package : ℕ) (reason : AbortReason)
  | undeclaredNullifier (tx : TxHash) (key : SubstateKey)
  | inconsistentDeclaration (tx : TxHash)
  | undeclaredCrossingCell (tx : TxHash) (key : SubstateKey)
  | finish (tx : TxHash) (error : FinishError)
  | apply (error : StoreError)
  | missingBurn (key : SubstateKey)
  | judgedCells

inductive ApplyStop where
  | refused (store : OverlayStore) (key : SubstateKey) (amount : ℕ)
  | failed (error : BatchError)

def owned {β : Type} (applies : OwnerSet) (m : ExtTreeMap SubstateKey β) : List (SubstateKey × β) :=
  m.toList.filter fun p => applies p.1.owner

def ownedEntries (applies : OwnerSet) (m : ExtTreeMap EntryKey (Option Bytes)) :
    List (EntryKey × Option Bytes) :=
  m.toList.filter fun p => applies p.1.owner

def burnOf (fee : Option FeeBurn) (applies : OwnerSet) : Option FeeBurn :=
  fee.filter fun fee => fee.endsHold applies

def burnedAt (burn : Option FeeBurn) (key : SubstateKey) : ℕ :=
  ((burn.filter fun fee => fee.vault = key).map FeeBurn.amount).getD 0

def applyCell (store : OverlayStore) (p : SubstateKey × Option Bytes) : OverlayStore :=
  match p.2 with
  | some value => store.write p.1 value
  | none => (store.remove p.1).1

def applyEntry (store : OverlayStore) (p : EntryKey × Option Bytes) : OverlayStore :=
  match p.2 with
  | some value => store.entryWrite p.1 value
  | none => (store.entryRemove p.1).1

def applyFault (store : OverlayStore) (key : SubstateKey) (amount : ℕ) (error : StoreError) :
    ApplyStop :=
  match error.fault with
  | .floor => .refused store key amount
  | .declaration _ | .defect => .failed (.apply error)

/-- A movement without the burn composed into it; a vault the body never moved carries the
burn alone, and no movement of it was judged. -/
def applyMoved (tx : TxHash) (burn : Option FeeBurn) (withheld : Bool) (store : OverlayStore)
    (p : SubstateKey × Movement) : Except ApplyStop OverlayStore :=
  let burned := burnedAt burn p.1
  if p.2.debit < burned then .error (.failed (.missingBurn p.1))
  else
    let debit := p.2.debit - burned
    if 0 < burned ∧ p.2.credit = 0 ∧ debit = 0 then .ok store
    else do
      let (store, _) ← (applyMovement store p.1 tx p.2.credit debit).mapError
        (applyFault store p.1 debit)
      let raised := p.2.credit - debit
      return if withheld = true ∧ 0 < raised then store.withholdCredit p.1 tx raised else store

def applySettle (tx : TxHash) (store : OverlayStore) (p : SubstateKey × Movement) :
    Except ApplyStop OverlayStore :=
  let store := reduceHold store p.1 tx p.2.debit
  ((settle store p.1 tx).map Prod.fst).mapError
    (applyFault store p.1 ((store.heldReservation p.1 tx).getD 0))

def applyBurn (tx : TxHash) (burn : Option FeeBurn) (store : OverlayStore) :
    Except ApplyStop OverlayStore :=
  match burn with
  | none => .ok store
  | some fee =>
    let store := store.setFeeHold fee.vault tx none
    if fee.amount = 0 then .ok store
    else ((applyMovement store fee.vault tx 0 fee.amount).map Prod.fst).mapError
      (applyFault store fee.vault fee.amount)

def applyDelta (store : OverlayStore) (delta : StateDelta) (tx : TxHash) (applies : OwnerSet)
    (burn : Option FeeBurn) (withheld : Bool) : Except ApplyStop OverlayStore := do
  let store := (owned applies delta.cells).foldl applyCell store
  let store := (ownedEntries applies delta.entries).foldl applyEntry store
  let store ← (owned applies delta.movements).foldlM (applyMoved tx burn withheld) store
  let store ← (owned applies delta.settles).foldlM (applySettle tx) store
  applyBurn tx burn store

def applyCompleted (store : OverlayStore) (receipt : Receipt) (tx : TxHash) (applies : OwnerSet)
    (fee : Option FeeBurn) (withheld : Bool) :
    Except BatchError (OverlayStore × Option (SubstateKey × ℕ)) :=
  match applyDelta store receipt.delta tx applies (burnOf fee applies) withheld with
  | .ok store => .ok (store, none)
  | .error (.refused store key amount) => .ok (store, some (key, amount))
  | .error (.failed error) => .error error

theorem applyCompleted_ok {store store' : OverlayStore} {receipt : Receipt} {tx : TxHash}
    {applies : OwnerSet} {fee : Option FeeBurn} {withheld : Bool} :
    applyCompleted store receipt tx applies fee withheld = .ok (store', none) ↔
      applyDelta store receipt.delta tx applies (burnOf fee applies) withheld = .ok store' := by
  unfold applyCompleted
  split
  all_goals
    rename_i heq
    simp [heq]

end HyperscaleVm.Kernel

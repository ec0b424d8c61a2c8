import HyperscaleVm.Effects.Admission.Tree
import HyperscaleVm.Kernel.Outcome

/-!
# The receipt (`session/receipt.rs`)
-/

namespace HyperscaleVm.Kernel
open Effects.Admission (MAX_MANIFEST_NODES)
open Library
open Std (ExtTreeMap)

/-- `Movement`; its unjudged debit is the embedder's alone and is left out. -/
structure Movement where
  resource : ResourceAddr
  credit : ℕ
  debit : ℕ
  deriving DecidableEq

namespace Movement

def ofDebit (resource : ResourceAddr) (amount : ℕ) : Movement := ⟨resource, 0, amount⟩

/-- `then`: one movement after another on the same cell. -/
def andThen (m next : Movement) : Option Movement :=
  if m.resource ≠ next.resource then none
  else do
    let credit ← checkedAdd AMOUNT_BOUND m.credit next.credit
    let debit ← checkedAdd AMOUNT_BOUND m.debit next.debit
    return ⟨m.resource, credit, debit⟩

def raised (m : Movement) : ℕ := m.credit - m.debit

end Movement

def totalMovement (ops : List DeltaOp) (resource : ResourceAddr) : Except ModeError Movement :=
  (deltaTotals ops).map fun totals => ⟨resource, totals.1, totals.2⟩

structure StateDelta where
  cells : ExtTreeMap SubstateKey (Option Bytes)
  entries : ExtTreeMap EntryKey (Option Bytes)
  movements : ExtTreeMap SubstateKey Movement
  settles : ExtTreeMap SubstateKey Movement

def StateDelta.empty : StateDelta := ⟨∅, ∅, ∅, ∅⟩

structure Receipt where
  outcome : Outcome
  delta : StateDelta
  events : List Event
  supply : SupplyDelta
  escrow : EscrowDelta
  fuelByNode : List ℕ
  fuel : ℕ

inductive FinishError where
  | undeclared (accesses : List Access)
  | store (error : StoreError)
  | undenominatedMovement (key : SubstateKey)
  | composition (key : SubstateKey)
  /-- The panic of a receipt with more answers than a manifest has nodes. -/
  | tooManyAnswers

/-- Why finishing stopped: the transaction's own refusal, over the store as it stood, or a
defect of the kernel's. -/
inductive Stop where
  | aborted (store : OverlayStore) (outcome : Outcome)
  | refused (error : FinishError)

def FUEL_BOUND : ℕ := 2 ^ 64

def foldFuel (byNode : List ℕ) : ℕ := byNode.foldl (saturatingAdd FUEL_BOUND) 0

def abortWith (store : OverlayStore) (outcome : Outcome) (fuelByNode : List ℕ) :
    Receipt × OverlayStore :=
  (⟨outcome, .empty, [], .new, .new, fuelByNode, foldFuel fuelByNode⟩, store.discardActive)

def diff (store : OverlayStore) : StateDelta where
  cells := store.active.cells.filter fun key after => store.preActiveCell key ≠ after
  entries := store.active.entries.filter fun key after => store.preActiveEntry key ≠ after
  movements := ∅
  settles := ∅

def Capability.valueKey : Capability → Option SubstateKey
  | .amount key _ | .amountRead key | .delta key _ | .reserve key _ => some key
  | _ => none

def Capability.files (owner : Address) (collection : ℕ) : Capability → Bool
  | .instances interval _ => interval.owner = owner && interval.collection = collection
  | _ => false

def reserveClause (key : SubstateKey) (p : Capability × ℕ) : Option (ℕ × ℕ) :=
  match p.1 with
  | .reserve key' amount => if key' = key then some (p.2, amount) else none
  | _ => none

namespace Session

variable (s : Session)

/-- `Denominations::cell`: the first clause wins. -/
def cellHolds (key : SubstateKey) : Option ResourceAddr :=
  s.table.zipIdx.findSome? fun p => if p.1.valueKey = some key then s.resourceAt p.2 else none

/-- `Denominations::entry`, of a collection. -/
def entryHolds (owner : Address) (collection : ℕ) : Option ResourceAddr :=
  s.table.zipIdx.findSome? fun p => if p.1.files owner collection then s.resourceAt p.2 else none

def reservedClauses (key : SubstateKey) : List (ℕ × ℕ) :=
  s.table.zipIdx.filterMap (reserveClause key)

def takenAgainst (key : SubstateKey) : Option ℕ :=
  (((s.reservedClauses key).filter fun p => p.1 ∈ s.taken).map Prod.snd).foldlM
    (checkedAdd AMOUNT_BOUND) 0

def stopped (floor : Outcome) (error : StoreError) : Stop :=
  match error.fault with
  | .floor => .aborted s.store floor
  | .declaration error => .aborted s.store (.userError (.ofMode error))
  | .defect => .refused (.store error)

def queuedMovement (key : SubstateKey) (ops : List DeltaOp) : Except Stop Movement :=
  match s.cellHolds key with
  | none => .error (.refused (.undenominatedMovement key))
  | some resource =>
    (totalMovement ops resource).mapError fun error => .aborted s.store (.userError (.ofMode error))

def judgeQueued (p : SubstateKey × Movement) : Except Stop Unit :=
  if !s.applies p.1.owner then .ok ()
  else ((judgeMovement s.store p.1 s.tx p.2.credit p.2.debit).map fun _ => ()).mapError
    (s.stopped (.infeasible p.1 p.2.debit))

def foldRefused (error : StoreError) : Stop :=
  match error.fault with
  | .declaration error => .aborted s.store (.userError (.ofMode error))
  | _ => .refused (.store error)

def withholdRaised (store : OverlayStore) (p : SubstateKey × Movement) : OverlayStore :=
  if 0 < p.2.raised ∧ s.applies p.1.owner = true then store.withholdCredit p.1 s.tx p.2.raised
  else store

def judgeMovements : Except Stop (Session × ExtTreeMap SubstateKey Movement) := do
  let movements ← mapEntriesM s.queuedMovement s.store.pendingMap
  tryAll s.judgeQueued movements.toList
  let s := { s with store := s.store.retainPendingDeltas fun key => s.applies key.owner }
  let (store, _) ← (commitDeltas s.store).mapError s.foldRefused
  let store := if s.creditsWithheld then movements.toList.foldl s.withholdRaised store else store
  return ({ s with store }, movements)

def reservedKeys (seen : List SubstateKey) : List Capability → List SubstateKey
  | [] => []
  | held :: rest =>
    match held with
    | .reserve key _ =>
      if key ∈ seen then reservedKeys seen rest else key :: reservedKeys (key :: seen) rest
    | _ => reservedKeys seen rest

def reducedFor (key : SubstateKey) (taken : ℕ) : Session :=
  if taken ≠ 0 ∧ s.applies key.owner = true then
    { s with store := reduceHold s.store key s.tx taken }
  else s

def disposeHold (key : SubstateKey) (taken : ℕ) : Except StoreError (OverlayStore × Option ℕ) :=
  if taken = 0 then (release s.store key s.tx).map fun released => (released.1, none)
  else if s.applies key.owner then
    (settle s.store key s.tx).map fun settled => (settled.1, some settled.2)
  else (release s.store key s.tx).map fun released => (released.1, some taken)

/-- One reserved cell of `settle_reservations`. -/
def settleReservation (state : Session × ExtTreeMap SubstateKey Movement) (key : SubstateKey) :
    Except Stop (Session × ExtTreeMap SubstateKey Movement) :=
  let (s, settles) := state
  if !s.judges key.owner then .ok (s, settles)
  else
    match s.cellHolds key with
    | none => .error (.refused (.undenominatedMovement key))
    | some resource =>
      match s.takenAgainst key with
      | none => .error (.aborted s.store (.protocolError .valueNotConserved))
      | some taken => do
        let s := s.reducedFor key taken
        let (store, settled) ← (s.disposeHold key taken).mapError
          (s.stopped (.infeasible key ((s.store.heldReservation key s.tx).getD 0)))
        return ({ s with store },
          match settled with
          | some amount => settles.insert key (.ofDebit resource amount)
          | none => settles)

def settleReservations : Except Stop (Session × ExtTreeMap SubstateKey Movement) :=
  (reservedKeys [] s.table).foldlM settleReservation (s, ∅)

def composeBurn (movements : ExtTreeMap SubstateKey Movement) (fee : FeeBurn) :
    Except Stop (ExtTreeMap SubstateKey Movement) :=
  let burned := Movement.ofDebit fee.resource fee.amount
  match movements[fee.vault]? with
  | none => .ok (movements.insert fee.vault burned)
  | some standing =>
    match standing.andThen burned with
    | some composed => .ok (movements.insert fee.vault composed)
    | none => .error (.refused (.composition fee.vault))

def burnFee (movements : ExtTreeMap SubstateKey Movement) :
    Except Stop (Session × ExtTreeMap SubstateKey Movement) :=
  match s.fee.filter fun fee => fee.endsHold s.applies with
  | none => .ok (s, movements)
  | some fee =>
    let s := { s with store := s.store.setFeeHold fee.vault s.tx none }
    if fee.amount = 0 then .ok (s, movements)
    else do
      let (store, _) ← (applyMovement s.store fee.vault s.tx 0 fee.amount).mapError
        (s.stopped (.infeasible fee.vault fee.amount))
      let movements ← composeBurn movements fee
      let supply ← (s.supply.burn fee.resource fee.amount).mapError fun error =>
        .aborted store (.userError (.ofMode error))
      return ({ s with store, supply }, movements)

/-- The nullifiers a commit spends, each with its `spend_record`, then the crossing cells. -/
def kernelCells : List (SubstateKey × Bytes) :=
  (s.nullifiers.flatMap fun record => record.nullifiers.map fun key =>
    (key, s.codec.spent s.tx record.intent record.expiryMs)) ++ s.crossings.toList

def writeKernelCells : Session :=
  { s with store := s.kernelCells.foldl (fun store p =>
      if s.applies p.1.owner then store.write p.1 p.2 else store) s.store }

def putKernelCell (cells : ExtTreeMap SubstateKey (Option Bytes)) (p : SubstateKey × Bytes) :
    Except Stop (ExtTreeMap SubstateKey (Option Bytes)) :=
  if (s.cellHolds p.1).isSome then .error (.aborted s.store (.protocolError .malformedAmountCell))
  else .ok (cells.insert p.1 (some p.2))

def flip (key : EntryKey) (after : Option Bytes) : ℕ × ℕ :=
  match (s.store.preActiveEntry key).isSome, after.isSome with
  | false, true => (1, 0)
  | true, false => (0, 1)
  | _, _ => (0, 0)

def weights (delta : StateDelta) : List (ResourceAddr × ℕ × ℕ) :=
  (delta.movements.toList ++ delta.settles.toList).map
      (fun p => (p.2.resource, p.2.credit, p.2.debit)) ++
    delta.entries.toList.filterMap (fun p =>
      (s.entryHolds p.1.owner p.1.collection).map fun resource => (resource, s.flip p.1 p.2)) ++
    s.supply.resources.map (fun resource =>
      (resource, s.supply.burnedOf resource, s.supply.mintedOf resource)) ++
    s.escrow.resources.map (fun resource =>
      (resource, s.escrow.issuedOf resource, s.escrow.claimedOf resource))

def weigh (sides : ExtTreeMap ResourceAddr (Option (ℕ × ℕ))) (term : ResourceAddr × ℕ × ℕ) :
    ExtTreeMap ResourceAddr (Option (ℕ × ℕ)) :=
  let side := (sides[term.1]?).getD (some (0, 0))
  sides.insert term.1 (side.bind fun had => do
    let gained ← checkedAdd AMOUNT_BOUND had.1 term.2.1
    let lost ← checkedAdd AMOUNT_BOUND had.2 term.2.2
    return (gained, lost))

def unconserved (delta : StateDelta) : Option ResourceAddr :=
  ((s.weights delta).foldl weigh ∅).toList.findSome? fun p =>
    match p.2 with
    | some (gained, lost) => if gained ≠ lost then some p.1 else none
    | none => some p.1

def accounts : Except Stop (Session × StateDelta) := do
  require (!s.buckets.carriesValue) (.aborted s.store (.userError .valueDropped))
  let (s, movements) ← s.judgeMovements
  let (s, settles) ← s.settleReservations
  let (s, movements) ← s.burnFee movements
  let s := s.writeKernelCells
  let escaped := undeclaredAccesses s.store.log s.declared
  require escaped.isEmpty (.refused (.undeclared escaped))
  let changed := diff s.store
  let cells ← s.kernelCells.foldlM s.putKernelCell
    (changed.cells.filter fun key _ => !movements.contains key && !settles.contains key)
  return (s, ⟨cells, changed.entries, movements, settles⟩)

def balanced : Except Stop (Session × StateDelta) := do
  let (s, delta) ← s.accounts
  require (s.unconserved delta).isNone (.aborted s.store (.protocolError .valueNotConserved))
  return (s, delta)

def finish (answers : List Answer) (fuelByNode : List ℕ) :
    Except FinishError (Receipt × OverlayStore) :=
  match s.balanced with
  | .error (.refused error) => .error error
  | .error (.aborted store outcome) => .ok (abortWith store outcome fuelByNode)
  | .ok (s, delta) =>
    if answers.length ≤ MAX_MANIFEST_NODES then
      .ok
        (⟨.completed answers, delta, s.events, s.supply, s.escrow, fuelByNode, foldFuel fuelByNode⟩,
        s.store.mergeActive)
    else .error .tooManyAnswers

end Session

end HyperscaleVm.Kernel

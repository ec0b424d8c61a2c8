import HyperscaleVm.Kernel.Session.Session

/-!
# Movements between cells and buckets (`session/value.rs`)
-/

namespace HyperscaleVm.Kernel
open Effects
open Std (ExtTreeMap)

namespace Session

variable (s : Session)

def openBucket (held : Held) (resource : ResourceAddr) (origin : Option SubstateKey) :
    Session × ℕ :=
  ({ s with buckets := (s.buckets.opened held resource origin).1 },
    (s.buckets.opened held resource origin).2)

def takeBucket (rep : ℕ) : Except SessionTrap Session := do
  return { s with buckets := (← s.buckets.take rep).1 }

def queueDelta (key : SubstateKey) (op : DeltaOp) : Session :=
  { s with store := s.store.queueDelta key op }

def bucketTake (rep amount : ℕ) : Except SessionTrap (Session × ℕ) := do
  let (buckets, off) ← s.buckets.split rep amount
  return ({ s with buckets }, off)

def bucketSplit (rep num den : ℕ) : Except SessionTrap (Session × ℕ) := do
  let (buckets, off) ← s.buckets.splitShare rep num den
  return ({ s with buckets }, off)

def bucketPut (rep other : ℕ) : Except SessionTrap Session := do
  return { s with buckets := ← s.buckets.merge rep other }

def dropBucket (rep : ℕ) : Except SessionTrap Session := do
  return { s with buckets := ← s.buckets.drop rep }

def committedAmount (key : SubstateKey) (bytes : Bytes) : Except SessionTrap ℕ :=
  if bytes.isEmpty then .ok 0
  else
    match decodeAmount bytes with
    | .ok amount => .ok amount
    | .error _ => .error (.badAmountCell key)

def amountCell (key : SubstateKey) : Except SessionTrap (Session × ℕ) := do
  let (s, bytes) := s.declaredCell key
  let committed ← committedAmount key bytes
  let total ← (withQueued s.store key committed).mapError .store
  return (s, total)

def amountCellBalance (site element : ℕ) : Except SessionTrap (Session × ℕ) := do
  let key ← s.actingKey site element .balance
  s.amountCell key

def settling (site element : ℕ) (held : Capability) (attempted : Op) :
    Except SessionTrap Settlement :=
  match held.settlement with
  | some settlement => .ok settlement
  | none => .error (.ungranted site element held attempted)

def judgeTake (amount : ℕ) : Settlement → Except SessionTrap (Session × SubstateKey)
  | .immediate key => do
    let (s, standing) ← s.amountCell key
    if amount ≤ standing then return (s, key) else .error .cellUnderflow
  | .queued key => return (s, key)

def cellTake (site element amount : ℕ) : Except SessionTrap (Session × ℕ) := do
  let held ← s.acting site element .take
  let resource ← s.valueOf site element
  let settlement ← settling site element held .take
  let (s, key) ← s.judgeTake amount settlement
  return (s.queueDelta key (.sub amount)).openBucket (.amount amount) resource (some key)

def judgePut (amount : ℕ) : Settlement → Except SessionTrap (Session × SubstateKey)
  | .immediate key => do
    let (s, standing) ← s.amountCell key
    if standing + amount < AMOUNT_BOUND then return (s, key) else .error (.cellOverflow key amount)
  | .queued key => return (s, key)

/-- Nothing is consumed until everything is judged. -/
def cellPut (site element funds : ℕ) : Except SessionTrap Session := do
  let held ← s.acting site element .put
  s.judgeCredit site element funds
  let amount ← s.buckets.amount funds
  let settlement ← settling site element held .put
  let (s, key) ← s.judgePut amount settlement
  (s.queueDelta key (.add amount)).takeBucket funds

/-- The clause's own amount, its hold standing. -/
def reserved (site element : ℕ) (attempted : Op) : Except SessionTrap ℕ := do
  match ← s.acting site element attempted with
  | .reserve key amount =>
    match s.store.heldReservation key s.tx with
    | some _ => .ok amount
    | none => .error .reservationMissing
  | _ => .error .reservationMissing

def reserveAmount (site element : ℕ) : Except SessionTrap ℕ :=
  s.reserved site element .reservedAmount

def cellAt (rep : ℕ) : Option SubstateKey :=
  match s.table[rep]? with
  | some (.amount key _) | some (.delta key _) | some (.reserve key _) => some key
  | _ => none

/-- Once for each capability. -/
def reserveTake (site element : ℕ) : Except SessionTrap (Session × ℕ) := do
  let amount ← s.reserved site element .takeReserved
  let resource ← s.valueOf site element
  let rep ← s.repAt site element
  if rep ∈ s.taken then .error .reservationTaken
  else
    return ({ s with taken := insert rep s.taken }).openBucket (.amount amount) resource
      (s.cellAt rep)

def issued (grant : ℕ) (kind : ResourceKind) : Except SessionTrap ResourceAddr :=
  match s.issuance[grant]? with
  | some held =>
    if !held.direction.mints then .error .issuanceUngranted
    else if held.kind ≠ kind then .error .wrongIssuanceKind
    else .ok held.resource
  | none => .error .issuanceUngranted

def mint (grant amount : ℕ) : Except SessionTrap (Session × ℕ) := do
  let resource ← s.issued grant .fungible
  let supply ← (s.supply.mint resource amount).mapError .supply
  return ({ s with supply }).openBucket (.amount amount) resource none

def distinctIds (ids : List ℕ) : Except SessionTrap (List ℕ) :=
  if ids.length ≤ MAX_IDS_PER_EDGE ∧ ids.Nodup then .ok ids else .error .malformedIdSet

def mintInstances (grant : ℕ) (ids : List ℕ) : Except SessionTrap (Session × ℕ) := do
  let resource ← s.issued grant .nonFungible
  let instances := (← distinctIds ids).toFinset
  let supply ← (s.supply.mint resource instances.card).mapError .supply
  return ({ s with supply }).openBucket (.instances instances) resource none

def burn (funds : ℕ) : Except SessionTrap Session := do
  let carried ← s.buckets.resourceOf funds
  match s.issuance.find? fun grant => grant.resource = carried && grant.direction.burns with
  | none => .error .issuanceUngranted
  | some grant =>
    let held ← s.buckets.get funds
    let supply ← (s.supply.burn grant.resource held.quantity).mapError .supply
    ({ s with supply }).takeBucket funds

def recordCrossing (key : SubstateKey) (value : Bytes) : Except SessionTrap Session :=
  if s.crossings.contains key then .error (.crossingKeyRepeated key)
  else .ok { s with crossings := s.crossings.insert key value }

def departureTerms (departure : Departure) (origin : Option SubstateKey) :
    Except SessionTrap Terms :=
  match departure.kind, origin with
  | .owed, _ => .ok .owed
  | .escrowed, some credit => .ok (.escrowed credit)
  | .escrowed, none => .error (.crossingWithoutRecourse departure.record)

def escrowOut (node output funds : ℕ) (departure : Departure) :
    Except SessionTrap (Session × Crossed) := do
  let resource ← s.buckets.resourceOf funds
  let amount ← s.buckets.amount funds
  let terms ← departureTerms departure (s.buckets.originOf funds)
  let s ← s.takeBucket funds
  let crossed : Crossed := ⟨resource, amount⟩
  let escrow ← (s.escrow.issue node output crossed).mapError .supply
  let s ← ({ s with escrow }).recordCrossing departure.record
    (s.codec.record departure.id s.tx crossed departure.validityEndMs terms)
  return (s, crossed)

/-- No grant is consulted, and an owed crossing is never taken. -/
def escrowIn (arrival : Arrival) : Except SessionTrap (Session × ℕ) := do
  if arrival.kind = .owed then .error (.owedArrival arrival.claim)
  else
    let escrow ← (s.escrow.claim arrival.crossed).mapError .supply
    let s ← ({ s with escrow }).recordCrossing arrival.claim
      (s.codec.answer arrival.id s.tx .taken arrival.validityEndMs)
    return s.openBucket (.amount arrival.crossed.amount) arrival.crossed.resource none

end Session

end HyperscaleVm.Kernel

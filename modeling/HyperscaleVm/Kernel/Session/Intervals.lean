import HyperscaleVm.Kernel.Session.Value

/-!
# Intervals (`session/ranges.rs`)

A walk materializes its interval's page once and a write through the collection drops it.
-/

namespace HyperscaleVm.Kernel
open Library

namespace Session

variable (s : Session)

def actingInterval (site element : ℕ) (attempted : Op) : Except SessionTrap Interval := do
  let held ← s.acting site element attempted
  match held.interval with
  | some interval => .ok interval
  | none => .error (.ungranted site element held attempted)

/-- `interval`: what a walk reads over, whichever mode carries it. -/
def intervalAt (site element : ℕ) : Except SessionTrap Interval :=
  s.actingInterval site element .readEntries

def lift (owner : Address) (collection lo hi cap : ℕ) : Session × List (ℕ × Bytes) :=
  ({ s with store := (s.store.entriesInRange owner collection lo hi cap).1 },
    (s.store.entriesInRange owner collection lo hi cap).2)

def probe (interval : Interval) (order : ℕ) : Session × Bool :=
  let (s, found) := s.lift interval.owner interval.collection order order 1
  (s, !found.isEmpty)

def holdScan (site element : ℕ) (scan : Scan) : Session :=
  { s with ranges := { s.ranges with
      scans := fun at_ => if at_ = (site, element) then some scan else s.ranges.scans at_ } }

def scan (site element : ℕ) : Except SessionTrap (Session × Scan) :=
  match s.ranges.scans (site, element) with
  | some page => .ok (s, page)
  | none => do
    let interval ← s.intervalAt site element
    let (s, entries) :=
      s.lift interval.owner interval.collection interval.lo interval.hi interval.cap
    let page : Scan := ⟨entries, none⟩
    return (s.holdScan site element page, page)

def chargeWrite (site element order cap : ℕ) : Except SessionTrap Session := do
  let rep ← s.repAt site element
  let written := s.ranges.written rep
  if order ∉ written ∧ cap ≤ written.card then .error (.writeCapExceeded cap order)
  else
    return { s with ranges := { s.ranges with
      written := fun at_ => if at_ = rep then insert order written else s.ranges.written at_ } }

def scansCollection (owner : Address) (collection : ℕ) (at_ : ℕ × ℕ) : Bool :=
  match s.intervalAt at_.1 at_.2 with
  | .ok interval => interval.owner = owner && interval.collection = collection
  | .error _ => false

def invalidate (owner : Address) (collection : ℕ) : Session :=
  { s with ranges := { s.ranges with
      scans := fun at_ => if s.scansCollection owner collection at_ then
        none else s.ranges.scans at_ } }

def entrySet (interval : Interval) (order : ℕ) (value : Bytes) : Session :=
  { s with store := s.store.entryWrite ⟨interval.owner, interval.collection, order⟩ value }

def entryClear (interval : Interval) (order : ℕ) : Session :=
  { s with store := (s.store.entryRemove ⟨interval.owner, interval.collection, order⟩).1 }

def rangeCount (site element : ℕ) : Except SessionTrap (Session × ℕ) := do
  let (s, page) ← s.scan site element
  return (s, page.entries.length)

def resumeAt (interval : Interval) (page : Scan) : Option ℕ :=
  if page.entries.length < interval.cap then none
  else
    match page.entries.getLast? with
    | some (last, _) => if last = interval.hi then none else some (last + 1)
    | none => some interval.lo

def rangeCovered (site element : ℕ) : Except SessionTrap (Session × Bool) := do
  let (s, page) ← s.scan site element
  let interval ← s.intervalAt site element
  match page.covered with
  | some covered => return (s, covered)
  | none =>
    let (s, covered) :=
      match resumeAt interval page with
      | none => (s, true)
      | some resume =>
        if interval.cap = 0 then (s, false)
        else
          let (s, past) := s.lift interval.owner interval.collection resume interval.hi 1
          (s, past.isEmpty)
    return (s.holdScan site element { page with covered := some covered }, covered)

def indexed (page : Scan) (index : ℕ) : Except SessionTrap (ℕ × Bytes) :=
  match page.entries[index]? with
  | some found => .ok found
  | none => .error (.indexOutOfBounds index page.entries.length)

def rangeOrder (site element index : ℕ) : Except SessionTrap (Session × ℕ) := do
  let (s, page) ← s.scan site element
  return (s, (← indexed page index).1)

def rangeEntry (site element index : ℕ) : Except SessionTrap (Session × Bytes) := do
  let (s, page) ← s.scan site element
  return (s, (← indexed page index).2)

def rangeSet (site element index : ℕ) (value : Bytes) : Except SessionTrap Session := do
  let interval ← s.actingInterval site element .writeEntries
  checkValueLen value.length interval.width
  let (s, page) ← s.scan site element
  let (order, _) ← indexed page index
  let s ← s.chargeWrite site element order interval.cap
  return (s.entrySet interval order value).invalidate interval.owner interval.collection

def rangeInsert (site element order : ℕ) (value : Bytes) : Except SessionTrap Session := do
  let interval ← s.actingInterval site element .writeEntries
  checkValueLen value.length interval.width
  if !interval.holds order then .error .orderOutsideInterval
  else
    let s ← s.chargeWrite site element order interval.cap
    return (s.entrySet interval order value).invalidate interval.owner interval.collection

def rangeRemove (site element index : ℕ) : Except SessionTrap Session := do
  let interval ← s.actingInterval site element .writeEntries
  let (s, page) ← s.scan site element
  let (order, _) ← indexed page index
  let s ← s.chargeWrite site element order interval.cap
  return (s.entryClear interval order).invalidate interval.owner interval.collection

def claimInstance (site element : ℕ) (interval : Interval) (s : Session) (order : ℕ) :
    Except SessionTrap Session :=
  if !interval.holds order then .error .orderOutsideInterval
  else
    let (s, held) := s.probe interval order
    if held then s.chargeWrite site element order interval.cap
    else .error (.instanceNotHeld order)

/-- Every id is judged before any entry leaves. -/
def rangeTake (site element : ℕ) (ids : List ℕ) : Except SessionTrap (Session × ℕ) := do
  let interval ← s.actingInterval site element .takeInstances
  let resource ← s.valueOf site element
  let ids ← distinctIds ids
  let s ← ids.foldlM (claimInstance site element interval) s
  let s := (ascending ids.toFinset).foldl (fun s order => s.entryClear interval order) s
  return (s.invalidate interval.owner interval.collection).openBucket (.instances ids.toFinset)
    resource none

def refuseHeld (interval : Interval) (s : Session) (order : ℕ) : Except SessionTrap Session :=
  let (s, held) := s.probe interval order
  if held then .error (.instanceHeldTwice order) else .ok s

def rangePut (site element funds : ℕ) (value : Bytes) : Except SessionTrap Session := do
  let interval ← s.actingInterval site element .fileInstances
  checkValueLen value.length interval.width
  s.judgeCredit site element funds
  match ← s.buckets.get funds with
  | .amount _ => .error .wrongEdgeKind
  | .instances ids =>
    let orders := ascending ids
    if !orders.all interval.holds then .error .orderOutsideInterval
    else
      let s ← orders.foldlM (fun s order => s.chargeWrite site element order interval.cap) s
      let s ← orders.foldlM (refuseHeld interval) s
      let s := orders.foldl (fun s order => s.entrySet interval order value) s
      (s.invalidate interval.owner interval.collection).takeBucket funds

end Session

end HyperscaleVm.Kernel

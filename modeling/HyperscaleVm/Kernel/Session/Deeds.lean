import HyperscaleVm.Kernel.Session.Steps

/-!
# What one step of a session can do

Each operation that answers makes at most one entry in the books: one of the deeds below,
under a capability the setting holds.
-/

namespace HyperscaleVm.Kernel
open List Library
open Std (ExtTreeMap)

structure Setting where
  base : Baseline
  committed : Layer
  held : SubstateKey → ExtTreeMap TxHash (Option ℕ)
  feeHeld : SubstateKey → ExtTreeMap TxHash (Option ℕ)
  withheld : SubstateKey → ExtTreeMap TxHash ℕ
  declared : EffectSet
  table : List Capability
  cellResources : List (Option ResourceAddr)
  tx : TxHash
  env : EnvInputs
  codec : Codec
  applies : OwnerSet
  judges : OwnerSet
  nullifiers : List IntentRecord
  fee : Option FeeBurn
  creditsWithheld : Bool

structure Books where
  cells : ExtTreeMap SubstateKey (Option Bytes)
  entries : ExtTreeMap EntryKey (Option Bytes)
  queue : ExtTreeMap SubstateKey (List DeltaOp)
  slots : List (Option Held)
  resources : List ResourceAddr
  origins : List (Option SubstateKey)
  supply : SupplyDelta
  escrow : EscrowDelta
  crossings : ExtTreeMap SubstateKey Bytes
  taken : Finset ℕ

namespace Session

def setting (s : Session) : Setting where
  base := s.store.base
  committed := s.store.committed
  held := s.store.active.held
  feeHeld := s.store.active.feeHeld
  withheld := s.store.active.withheld
  declared := s.declared
  table := s.table
  cellResources := s.cellResources
  tx := s.tx
  env := s.env
  codec := s.codec
  applies := s.applies
  judges := s.judges
  nullifiers := s.nullifiers
  fee := s.fee
  creditsWithheld := s.creditsWithheld

def books (s : Session) : Books where
  cells := s.store.active.cells
  entries := s.store.active.entries
  queue := s.store.active.pendingDeltas
  slots := s.buckets.slots
  resources := s.buckets.resources
  origins := s.buckets.origins
  supply := s.supply
  escrow := s.escrow
  crossings := s.crossings
  taken := s.taken

def holdsEntry (s : Session) (interval : Interval) (order : ℕ) : Bool :=
  !(s.store.mergedEntries interval.owner interval.collection order order 1).isEmpty

end Session

namespace Books

variable (b : Books)

def Live (rep : ℕ) (held : Held) (resource : ResourceAddr) : Prop :=
  b.slots[rep]? = some (some held) ∧ b.resources[rep]? = some resource

def push (held : Held) (resource : ResourceAddr) (origin : Option SubstateKey) : Books :=
  { b with
    slots := b.slots ++ [some held]
    resources := b.resources ++ [resource]
    origins := b.origins ++ [origin] }

def close (rep : ℕ) : Books := { b with slots := b.slots.set rep none }

def refill (rep : ℕ) (held : Held) : Books := { b with slots := b.slots.set rep (some held) }

def enqueue (key : SubstateKey) (op : DeltaOp) : Books :=
  { b with queue := pushDelta b.queue key [op] }

def setEntries (owner : Address) (collection : ℕ) (orders : List ℕ)
    (value : Option Bytes) : Books :=
  { b with
    entries := orders.foldl (fun entries order => entries.insert ⟨owner, collection, order⟩ value)
      b.entries }

theorem getElem?_setEntries {b : Books} {owner : Address} {collection : ℕ} {orders : List ℕ}
    {value : Option Bytes} {key : EntryKey} :
    (b.setEntries owner collection orders value).entries[key]? =
      if key.owner = owner ∧ key.collection = collection ∧ key.order ∈ orders then some value
      else b.entries[key]? := by
  unfold setEntries
  dsimp only
  generalize b.entries = entries
  induction orders generalizing entries with
  | nil => simp
  | cons order orders ih =>
    rw [foldl_cons, ih, Library.getElem?_insert_eq]
    obtain ⟨owner', collection', order'⟩ := key
    simp only [EntryKey.mk.injEq, mem_cons]
    by_cases howner : owner' = owner
    · by_cases hcollection : collection' = collection
      · by_cases horder : order' = order
        · simp [howner, hcollection, horder]
        · simp [howner, hcollection, horder, Ne.symm horder]
      · simp [hcollection, Ne.symm hcollection]
    · simp [howner, Ne.symm howner]

end Books

inductive Deed where
  | nothing
  | setCell (key : SubstateKey) (value : Option Bytes)
  | setEntry (key : EntryKey) (value : Option Bytes)
  | debit (key : SubstateKey) (amount : ℕ) (resource : ResourceAddr)
  | credit (key : SubstateKey) (amount funds : ℕ)
  | takeReserved (rep amount : ℕ) (resource : ResourceAddr) (origin : Option SubstateKey)
  | split (rep left off : ℕ) (resource : ResourceAddr) (origin : Option SubstateKey)
  | merge (rep other : ℕ) (total : Held) (origins : List (Option SubstateKey))
  | discard (rep : ℕ)
  | mint (held : Held) (resource : ResourceAddr) (supply : SupplyDelta)
  | burn (funds : ℕ) (supply : SupplyDelta)
  | issue (node output funds : ℕ) (crossed : Crossed) (record : SubstateKey) (value : Bytes)
    (escrow : EscrowDelta)
  | claim (crossed : Crossed) (key : SubstateKey) (value : Bytes) (escrow : EscrowDelta)
  | takeInstances (interval : Interval) (ids : Finset ℕ) (resource : ResourceAddr)
  | fileInstances (interval : Interval) (ids : Finset ℕ) (funds : ℕ) (value : Bytes)

namespace Deed

def apply (b : Books) : Deed → Books
  | .nothing => b
  | .setCell key value => { b with cells := b.cells.insert key value }
  | .setEntry key value => { b with entries := b.entries.insert key value }
  | .debit key amount resource =>
    (b.enqueue key (.sub amount)).push (.amount amount) resource (some key)
  | .credit key amount funds => (b.enqueue key (.add amount)).close funds
  | .takeReserved rep amount resource origin =>
    ({ b with taken := insert rep b.taken }).push (.amount amount) resource origin
  | .split rep left off resource origin =>
    (b.refill rep (.amount left)).push (.amount off) resource origin
  | .merge rep other total origins => ({ b with origins }.close other).refill rep total
  | .discard rep => b.close rep
  | .mint held resource supply => { b with supply }.push held resource none
  | .burn funds supply => { b with supply }.close funds
  | .issue _ _ funds _ record value escrow =>
    { b with escrow, crossings := b.crossings.insert record value }.close funds
  | .claim crossed key value escrow =>
    { b with escrow, crossings := b.crossings.insert key value }.push (.amount crossed.amount)
      crossed.resource none
  | .takeInstances interval ids resource =>
    (b.setEntries interval.owner interval.collection (ascending ids) none).push (.instances ids)
      resource none
  | .fileInstances interval ids funds value =>
    (b.setEntries interval.owner interval.collection (ascending ids) (some value)).close funds

def Holds (w : Setting) (rep : ℕ) (held : Capability) (resource : Option ResourceAddr) : Prop :=
  w.table[rep]? = some held ∧ (w.cellResources[rep]?).getD none = resource ∧
    w.judges held.owner = true

def Allowed (s : Session) : Deed → Prop
  | .nothing => True
  | .setCell key _ => ∃ rep r, Holds s.setting rep (.write key) r
  | .setEntry key _ => ∃ rep interval r, Holds s.setting rep (.rangeWrite interval) r ∧
      interval.owner = key.owner ∧ interval.collection = key.collection
  | .debit key _ resource => ∃ rep held, Holds s.setting rep held (some resource) ∧
      (held.settlement = some (.immediate key) ∨ held.settlement = some (.queued key))
  | .credit key amount funds => ∃ rep held resource, Holds s.setting rep held (some resource) ∧
      (held.settlement = some (.immediate key) ∨ held.settlement = some (.queued key)) ∧
      s.books.Live funds (.amount amount) resource
  | .takeReserved rep amount resource origin => rep ∉ s.taken ∧ ∃ key,
      Holds s.setting rep (.reserve key amount) (some resource) ∧ origin = some key ∧
        (s.store.heldReservation key s.tx).isSome
  | .split rep left off resource origin =>
    s.books.Live rep (.amount (left + off)) resource ∧ origin = s.buckets.originOf rep
  | .merge rep other total origins => ∃ held added resource, rep ≠ other ∧
      s.books.Live rep held resource ∧ s.books.Live other added resource ∧
      Buckets.merged held added = .ok total ∧ origins.length = s.books.origins.length
  | .discard rep => ∃ held resource, s.buckets.slots[rep]? = some (some held) ∧ held.quantity = 0 ∧
      s.buckets.resources[rep]? = resource
  | .mint held resource supply => s.supply.mint resource held.quantity = .ok supply
  | .burn funds supply => ∃ held resource, s.books.Live funds held resource ∧
      s.supply.burn resource held.quantity = .ok supply
  | .issue node output funds crossed _ _ escrow =>
      s.books.Live funds (.amount crossed.amount) crossed.resource ∧
        s.escrow.issue node output crossed = .ok escrow
  | .claim crossed _ _ escrow => s.escrow.claim crossed = .ok escrow
  | .takeInstances interval ids resource => ∃ rep moves,
      Holds s.setting rep (.instances interval moves) (some resource) ∧
      ∀ id ∈ ids, interval.holds id = true ∧ s.holdsEntry interval id = true
  | .fileInstances interval ids funds _ => ∃ rep moves resource,
      Holds s.setting rep (.instances interval moves) (some resource) ∧
      s.books.Live funds (.instances ids) resource ∧
      ∀ id ∈ ids, interval.holds id = true ∧ s.holdsEntry interval id = false

def Plain : Deed → Prop
  | .mint _ _ _ | .burn _ _ | .issue _ _ _ _ _ _ _ | .claim _ _ _ _ => False
  | _ => True

def Fits (s : Session) (op : SessionOp) (deed : Deed) : Prop :=
  match op with
  | .mint _ amount => ∃ resource supply, deed = .mint (.amount amount) resource supply
  | .mintInstances grant ids => ∃ resource supply, s.issued grant .nonFungible = .ok resource ∧
      deed = .mint (.instances ids.toFinset) resource supply
  | .burn funds => ∃ supply, deed = .burn funds supply
  | .escrowOut node output funds departure => ∃ crossed value escrow,
      deed = .issue node output funds crossed departure.record value escrow
  | .escrowIn arrival => ∃ value escrow, deed = .claim arrival.crossed arrival.claim value escrow
  | _ => deed.Plain

end Deed

/-- The orders of a capability that have been charged grow by a run, within its cap. -/
structure Charge (s t : Session) (rep cap : ℕ) (orders : Finset ℕ) : Prop where
  only : ∀ {other : ℕ}, other ≠ rep → t.ranges.written other = s.ranges.written other
  joined : t.ranges.written rep = s.ranges.written rep ∪ orders
  within : (s.ranges.written rep).card ≤ cap → (t.ranges.written rep).card ≤ cap

/-- Where an order to edit comes from: named within the interval, or read off a page of it. -/
def Session.Picks (s : Session) (interval : Interval) (order : ℕ) : Prop :=
  interval.holds order = true ∨ ∃ site element t page found,
    s.actingInterval site element .writeEntries = .ok interval ∧
      s.scan site element = .ok (t, page) ∧ (order, found) ∈ page.entries

/-- What a deed is charged for: every entry it changes against the cap of its capability,
every value against the width declared, a seal against nothing. -/
def Deed.Charges (s t : Session) (op : SessionOp) : Deed → Prop
  | .setCell key value => t.ranges.written = s.ranges.written ∧ ∀ v, value = some v →
      v.length ≤ s.declared.widthOf (.point key) ∨
        ∃ site element, op = .sealCell site element ∧ s.actingKey site element .seal = .ok key ∧
          v = Session.sealBytes s.env.epoch
  | .setEntry key value => ∃ rep interval, s.table[rep]? = some (.rangeWrite interval) ∧
      interval.owner = key.owner ∧ interval.collection = key.collection ∧
      Charge s t rep interval.cap {key.order} ∧ s.Picks interval key.order ∧
      ∀ v, value = some v → v.length ≤ interval.width
  | .takeInstances interval ids _ => ∃ rep moves, s.table[rep]? = some (.instances interval moves) ∧
      Charge s t rep interval.cap ids
  | .fileInstances interval ids _ value => ∃ rep moves,
      s.table[rep]? = some (.instances interval moves) ∧ Charge s t rep interval.cap ids ∧
      value.length ≤ interval.width
  | _ => t.ranges.written = s.ranges.written

def Session.Does (s : Session) (op : SessionOp) (t : Session) : Prop :=
  ∃ deed : Deed, deed.Allowed s ∧ deed.Fits s op ∧ t.books = deed.apply s.books ∧
    t.setting = s.setting

def Session.Makes (s : Session) (op : SessionOp) (t : Session) : Prop :=
  ∃ deed : Deed, deed.Allowed s ∧ deed.Fits s op ∧ t.books = deed.apply s.books ∧
    t.setting = s.setting ∧ deed.Charges s t op

theorem Session.Makes.does {s t : Session} {op : SessionOp} (h : s.Makes op t) : s.Does op t := by
  obtain ⟨deed, hallowed, hfits, hbooks, hsetting, -⟩ := h
  exact ⟨deed, hallowed, hfits, hbooks, hsetting⟩

namespace Session

variable {s t : Session} {site element : ℕ}

theorem repAt_ok {rep : ℕ} : s.repAt site element = .ok rep ↔
    s.entry site element = .ok (some rep) := by
  unfold repAt
  rw [bind_ok]
  constructor
  · rintro ⟨found, hfound, h⟩
    cases found with
    | none => cases h
    | some rep' =>
      cases h
      exact hfound
  · intro h
    exact ⟨_, h, rfl⟩

variable {op : Op} {held : Capability}

theorem acting_ok (h : s.acting site element op = .ok held) :
    ∃ rep, s.repAt site element = .ok rep ∧ s.table[rep]? = some held ∧
      s.judges held.owner = true ∧ grants held op = true := by
  obtain ⟨found, hfound, h⟩ := bind_ok.mp h
  obtain ⟨rep, hrep, hfound⟩ := bind_ok.mp hfound
  refine ⟨rep, hrep, ?_⟩
  split at hfound
  · rename_i htable
    cases hfound
    split at h
    · cases h
    rename_i hjudges
    split at h
    · rename_i hgrants
      cases h
      exact ⟨htable, by simpa using hjudges, hgrants⟩
    · cases h
  · cases hfound

variable {resource : ResourceAddr}

theorem valueOf_ok (h : s.valueOf site element = .ok resource) :
    ∃ rep, s.repAt site element = .ok rep ∧ s.resourceAt rep = some resource := by
  unfold valueOf at h
  split at h
  · rename_i rep hentry
    refine ⟨rep, repAt_ok.mpr hentry, ?_⟩
    split at h
    · rename_i r hr
      cases h
      exact hr
    · cases h
  · cases h

theorem actingKey_ok {key : SubstateKey} (h : s.actingKey site element op = .ok key) :
    ∃ held, s.acting site element op = .ok held ∧ held.key = some key := by
  obtain ⟨held, hheld, h⟩ := bind_ok.mp h
  refine ⟨held, hheld, ?_⟩
  split at h
  · rename_i hkey
    cases h
    exact hkey
  · cases h

theorem actingInterval_ok {interval : Interval}
    (h : s.actingInterval site element op = .ok interval) :
    ∃ held, s.acting site element op = .ok held ∧ held.interval = some interval := by
  obtain ⟨held, hheld, h⟩ := bind_ok.mp h
  refine ⟨held, hheld, ?_⟩
  split at h
  · rename_i hinterval
    cases h
    exact hinterval
  · cases h

theorem holds_of_acting
    (hacting : s.acting site element op = .ok held)
    (hvalue : s.valueOf site element = .ok resource) :
    ∃ rep, s.repAt site element = .ok rep ∧ Deed.Holds s.setting rep held (some resource) := by
  obtain ⟨rep, hrep, htable, hjudges, -⟩ := acting_ok hacting
  obtain ⟨rep', hrep', hresource⟩ := valueOf_ok hvalue
  obtain rfl : rep = rep' := Except.ok.inj (hrep.symm.trans hrep')
  exact ⟨rep, hrep, htable, hresource, hjudges⟩

theorem judgeCredit_ok {funds : ℕ} (h : s.judgeCredit site element funds = .ok ()) :
    ∃ resource, s.valueOf site element = .ok resource ∧
      s.buckets.resourceOf funds = .ok resource := by
  obtain ⟨cell, hcell, carried, hcarried, h⟩ := binds_ok.mp h
  split at h
  · rename_i heq
    subst heq
    exact ⟨cell, hcell, hcarried⟩
  · cases h

end Session

namespace Buckets

variable {b b' : Buckets} {rep : ℕ} {held : Held}

theorem get_ok (h : b.get rep = .ok held) :
    b.slots[rep]? = some (some held) ∧ b.reach.holds rep = true := by
  unfold get at h
  split at h
  · rename_i hslot
    split at h
    · rename_i hreach
      cases h
      exact ⟨hslot, hreach⟩
    · cases h
  · cases h

theorem amount_ok {n : ℕ} (h : b.amount rep = .ok n) : b.slots[rep]? = some (some (.amount n)) := by
  obtain ⟨held, hheld, h⟩ := bind_ok.mp h
  cases held with
  | amount n' =>
    cases h
    exact (get_ok hheld).1
  | instances ids => cases h

theorem resourceOf_ok {resource : ResourceAddr} (h : b.resourceOf rep = .ok resource) :
    b.resources[rep]? = some resource := by
  unfold resourceOf at h
  split at h
  · rename_i hresource
    split at h
    · cases h
      exact hresource
    · cases h
  · cases h

theorem take_ok (h : b.take rep = .ok (b', held)) :
    b.slots[rep]? = some (some held) ∧ b' = { b with slots := b.slots.set rep none } := by
  obtain ⟨held', hheld, h⟩ := bind_ok.mp h
  cases h
  exact ⟨(get_ok hheld).1, rfl⟩

theorem merged_ok {added total : Held} (h : merged held added = .ok total) :
    (∃ n m, held = .amount n ∧ added = .amount m ∧ total = .amount (n + m)) ∨
      ∃ ids ids', held = .instances ids ∧ added = .instances ids' ∧ Disjoint ids ids' ∧
        total = .instances (ids ∪ ids') := by
  cases held with
  | amount n =>
    cases added with
    | instances ids' => cases h
    | amount m =>
      simp only [merged] at h
      split at h
      · cases h
        exact .inl ⟨n, m, rfl, rfl, rfl⟩
      · cases h
  | instances ids =>
    cases added with
    | amount m => cases h
    | instances ids' =>
      simp only [merged] at h
      split at h
      · cases h
      rename_i hfind
      cases h
      rw [find?_eq_none] at hfind
      refine .inr ⟨ids, ids', rfl, rfl, ?_, rfl⟩
      rw [Finset.disjoint_right]
      intro id hid
      simpa using hfind id (mem_ascending.mpr hid)

end Buckets

end HyperscaleVm.Kernel

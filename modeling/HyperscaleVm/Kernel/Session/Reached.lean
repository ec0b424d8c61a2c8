import HyperscaleVm.Kernel.Session.Deeds

/-!
# What an operation reaches (`session.rs`, `session/reach.rs`)
-/

namespace HyperscaleVm.Kernel
open Effects List
open Effects.Admission (IssuanceGrant)
open Library

namespace SessionOp

def site : SessionOp → Option ℕ
  | .siteLen site | .siteDeclared site _ | .cellGet site _ | .writeCellSet site _ _
  | .writeCellClear site _ | .sealCell site _ | .openSeal site _ | .amountCellBalance site _
  | .cellTake site _ _ | .cellPut site _ _ | .reserveAmount site _ | .reserveTake site _
  | .rangeCount site _ | .rangeCovered site _ | .rangeOrder site _ _ | .rangeEntry site _ _
  | .rangeSet site _ _ _ | .rangeInsert site _ _ _ | .rangeRemove site _ _ | .rangeTake site _ _
  | .rangePut site _ _ _ => some site
  | _ => none

def buckets : SessionOp → List ℕ
  | .bucketAmount rep | .bucketTake rep _ | .bucketSplit rep _ _ | .dropBucket rep => [rep]
  | .bucketPut rep other => [rep, other]
  | .cellPut _ _ funds | .burn funds | .rangePut _ _ funds _ | .escrowOut _ _ funds _ => [funds]
  | _ => []

def opens : SessionOp → Bool
  | .cellTake _ _ _ | .reserveTake _ _ | .bucketTake _ _ | .bucketSplit _ _ _ | .mint _ _
  | .mintInstances _ _ | .rangeTake _ _ _ | .escrowIn _ => true
  | _ => false

def page : SessionOp → Option (ℕ × ℕ × Option ℕ)
  | .rangeCount site element => some (site, element, none)
  | .rangeOrder site element index | .rangeEntry site element index =>
    some (site, element, some index)
  | _ => none

def walks : SessionOp → Bool
  | .rangeCount _ _ | .rangeCovered _ _ | .rangeOrder _ _ _ | .rangeEntry _ _ _ | .rangeSet _ _ _ _
  | .rangeInsert _ _ _ _ | .rangeRemove _ _ _ | .rangeTake _ _ _ | .rangePut _ _ _ _ => true
  | _ => false

def settles : SessionOp → Bool
  | .cellTake _ _ _ | .cellPut _ _ _ => true
  | _ => false

def lends : SessionOp → Bool
  | .enterInvocation _ _ | .leaveInvocation | .bindSite _ | .lendBucket _ | .grantIssuance _ => true
  | _ => false

inductive Lends : SessionOp → Prop
  | enter (emitter eventBytes) : Lends (.enterInvocation emitter eventBytes)
  | leave : Lends .leaveInvocation
  | bind (entries) : Lends (.bindSite entries)
  | lend (rep) : Lends (.lendBucket rep)
  | grant (grants) : Lends (.grantIssuance grants)

theorem lends_of {op : SessionOp} : op.lends = true → op.Lends := by
  cases op <;> simp [lends] <;> constructor

def gateTarget : SessionOp → Option EffectTarget
  | .declaredCell key => some (.point key)
  | .declaredPresent target => some target
  | _ => none

def writesAt : SessionOp → Option (ℕ × ℕ × Op)
  | .rangeSet site element _ _ | .rangeInsert site element _ _ | .rangeRemove site element _ =>
    some (site, element, .writeEntries)
  | .rangeTake site element _ => some (site, element, .takeInstances)
  | .rangePut site element _ _ => some (site, element, .fileInstances)
  | _ => none

def Granted (grants : List IssuanceGrant) (s : Session) : SessionOp → Prop
  | .mint grant _ => ∃ held, grants[grant]? = some held ∧ held.direction.mints = true
  | .mintInstances grant _ => ∃ held, grants[grant]? = some held ∧ held.direction.mints = true
  | .burn funds => ∃ held ∈ grants, held.direction.burns = true ∧
      s.buckets.resources[funds]? = some held.resource
  | _ => True

end SessionOp

namespace Buckets

variable {b c d : Buckets} {rep : ℕ}

structure Edits (named : List ℕ) (b c : Buckets) : Prop where
  reach : c.reach = b.reach
  lengths : c.slots.length = b.slots.length ∧ c.resources.length = b.resources.length ∧
    c.origins.length = b.origins.length
  others : ∀ rep, rep ∉ named → c.slots[rep]? = b.slots[rep]? ∧
    c.resources[rep]? = b.resources[rep]? ∧ c.origins[rep]? = b.origins[rep]?

theorem Edits.refl (b : Buckets) (named : List ℕ) : Edits named b b :=
  ⟨rfl, ⟨rfl, rfl, rfl⟩, fun _ _ => ⟨rfl, rfl, rfl⟩⟩

variable {named : List ℕ}

theorem Edits.trans (h : Edits named b c) (h' : Edits named c d) : Edits named b d where
  reach := h'.reach.trans h.reach
  lengths := ⟨h'.lengths.1.trans h.lengths.1, h'.lengths.2.1.trans h.lengths.2.1,
    h'.lengths.2.2.trans h.lengths.2.2⟩
  others rep hrep := by
    obtain ⟨hslot, hresource, horigin⟩ := h.others rep hrep
    obtain ⟨hslot', hresource', horigin'⟩ := h'.others rep hrep
    exact ⟨hslot'.trans hslot, hresource'.trans hresource, horigin'.trans horigin⟩

theorem edits_slot (b : Buckets) (hrep : rep ∈ named) (slot : Option Held) :
    Edits named b { b with slots := b.slots.set rep slot } where
  reach := rfl
  lengths := ⟨length_set, rfl, rfl⟩
  others other hother := by
    have hne : rep ≠ other := fun heq => hother (heq ▸ hrep)
    exact ⟨getElem?_set_ne hne, rfl, rfl⟩

theorem edits_mixOrigin (b : Buckets) (hrep : rep ∈ named) (other : ℕ) :
    Edits named b (b.mixOrigin rep other) := by
  unfold mixOrigin
  split
  · exact .refl b named
  · refine ⟨rfl, ⟨rfl, rfl, length_set⟩, fun another hanother => ⟨rfl, rfl, ?_⟩⟩
    have hne : rep ≠ another := fun heq => hanother (heq ▸ hrep)
    exact getElem?_set_ne hne

def Moves (named : List ℕ) (opens : Bool) (b : Buckets) (a : OpAnswer) (d : Buckets) : Prop :=
  (∀ rep ∈ named, b.reach.holds rep = true) ∧ ∃ c, Edits named b c ∧
    if opens then ∃ held resource origin,
      a = .number c.slots.length ∧ d = (c.opened held resource origin).1
    else d = c

variable {resource : ResourceAddr}

theorem resourceOf_reach (h : b.resourceOf rep = .ok resource) : b.reach.holds rep = true := by
  unfold resourceOf at h
  split at h
  · split at h
    · assumption
    · cases h
  · cases h

theorem amount_reach {n : ℕ} (h : b.amount rep = .ok n) : b.reach.holds rep = true := by
  obtain ⟨held, hheld, -⟩ := bind_ok.mp h
  exact (get_ok hheld).2

variable {held : Held}

theorem take_reach (h : b.take rep = .ok (c, held)) : b.reach.holds rep = true := by
  obtain ⟨held', hheld, -⟩ := bind_ok.mp h
  exact (get_ok hheld).2

variable {off : ℕ}

theorem divide_moves {left rep' : ℕ} (hreach : b.reach.holds rep = true)
    (h : b.divide rep left off resource = (d, rep')) : Moves [rep] true b (.number rep') d := by
  cases h
  refine ⟨fun other hother => mem_singleton.mp hother ▸ hreach, b.set rep (.amount left),
    edits_slot b (mem_singleton_self rep) _, ?_⟩
  exact ⟨.amount off, resource, b.originOf rep, rfl, rfl⟩

theorem split_moves {amount : ℕ} (h : b.split rep amount = .ok (d, off)) :
    Moves [rep] true b (.number off) d := by
  obtain ⟨held, hheld, resource, -, h⟩ := binds_ok.mp h
  split at h
  · exact divide_moves (amount_reach hheld) (Except.ok.inj h)
  · cases h

theorem splitShare_moves {num den : ℕ} (h : b.splitShare rep num den = .ok (d, off)) :
    Moves [rep] true b (.number off) d := by
  obtain ⟨held, hheld, h⟩ := bind_ok.mp h
  split at h
  · cases h
  split at h
  · cases h
  dsimp only at h
  split at h
  · cases h
  · obtain ⟨resource, -, h⟩ := bind_ok.mp h
    split at h
    · exact divide_moves (amount_reach hheld) (Except.ok.inj h)
    · cases h

variable {a : OpAnswer}

theorem take_moves (h : b.take rep = .ok (d, held)) : Moves [rep] false b a d := by
  obtain ⟨-, rfl⟩ := take_ok h
  exact ⟨fun other hother => mem_singleton.mp hother ▸ take_reach h, _,
    edits_slot b (mem_singleton_self rep) none, rfl⟩

theorem drop_moves (h : b.drop rep = .ok d) : Moves [rep] false b a d := by
  obtain ⟨held, hheld, h⟩ := bind_ok.mp h
  split at h
  · obtain ⟨⟨c, held'⟩, htake, h⟩ := bind_ok.mp h
    cases h
    exact take_moves htake
  · cases h
    exact ⟨fun other hother => mem_singleton.mp hother ▸ (get_ok hheld).2, b, .refl b _, rfl⟩

theorem merge_moves {other : ℕ} (h : b.merge rep other = .ok d) :
    Moves [rep, other] false b a d := by
  obtain ⟨into, hinto, carried, hcarried, h⟩ := binds_ok.mp h
  split at h
  · cases h
  obtain ⟨⟨left, added⟩, htake, held, -, h⟩ := binds_ok.mp h
  obtain ⟨total, -, h⟩ := bind_ok.mp h
  cases h
  obtain ⟨-, rfl⟩ := take_ok htake
  refine ⟨?_, _, ?_, rfl⟩
  · rw [forall_mem_cons, forall_mem_singleton]
    exact ⟨resourceOf_reach hinto, resourceOf_reach hcarried⟩
  · have hrep : rep ∈ [rep, other] := mem_cons_self
    have hother : other ∈ [rep, other] := mem_cons_of_mem _ (mem_singleton_self _)
    exact ((edits_mixOrigin b hrep other).trans (edits_slot _ hother none)).trans
      (edits_slot _ hrep _)

theorem still_moves (b : Buckets) (a : OpAnswer) : Moves [] false b a b :=
  ⟨fun _ hrep => absurd hrep not_mem_nil, b, .refl b _, rfl⟩

theorem opened_moves (b : Buckets) (held : Held) (resource : ResourceAddr)
    (origin : Option SubstateKey) :
    Moves [] true b (.number (b.opened held resource origin).2) (b.opened held resource origin).1 :=
  ⟨fun _ hrep => absurd hrep not_mem_nil, b, .refl b _, held, resource, origin, rfl, rfl⟩

end Buckets

namespace Session

variable {s t u : Session} {site element : ℕ} {rep : ℕ}

theorem site_reach {entries : List (Option ℕ)} (h : s.site rep = .ok entries) :
    s.reach.holds rep = true := by
  unfold Session.site at h
  split at h
  · cases h
  · split at h
    · cases h
    · rename_i hreach
      simpa using hreach

variable {index : ℕ}

theorem entry_reach {found : Option ℕ} (h : s.entry rep index = .ok found) :
    s.reach.holds rep = true := by
  unfold entry at h
  split at h
  · cases h
  · obtain ⟨entries, hentries, -⟩ := bind_ok.mp h
    exact site_reach hentries

theorem acting_reach {op : Op} {held : Capability} (h : s.acting site element op = .ok held) :
    s.reach.holds site = true := by
  obtain ⟨rep, hrep, -⟩ := acting_ok h
  exact entry_reach (repAt_ok.mp hrep)

variable {key : SubstateKey}

theorem actingKey_reach {op : Op} (h : s.actingKey site element op = .ok key) :
    s.reach.holds site = true := by
  obtain ⟨held, hheld, -⟩ := actingKey_ok h
  exact acting_reach hheld

variable {interval : Interval}

theorem actingInterval_reach {op : Op}
    (h : s.actingInterval site element op = .ok interval) : s.reach.holds site = true := by
  obtain ⟨held, hheld, -⟩ := actingInterval_ok h
  exact acting_reach hheld

structure Stands (s t : Session) : Prop where
  issuance : t.issuance = s.issuance
  reach : t.reach = s.reach
  buckets : t.buckets = s.buckets
  sites : t.sites = s.sites
  entries : t.entries = s.entries
  setting : t.setting = s.setting
  queue : t.store.active.pendingDeltas = s.store.active.pendingDeltas

theorem Stands.refl (s : Session) : s.Stands s := ⟨rfl, rfl, rfl, rfl, rfl, rfl, rfl⟩

theorem Stands.trans (h : s.Stands t) (h' : t.Stands u) : s.Stands u :=
  ⟨h'.issuance.trans h.issuance, h'.reach.trans h.reach, h'.buckets.trans h.buckets,
    h'.sites.trans h.sites, h'.entries.trans h.entries, h'.setting.trans h.setting,
    h'.queue.trans h.queue⟩

structure Still (s t : Session) : Prop extends Stands s t where
  scans : t.ranges.scans = s.ranges.scans
  filed : t.store.active.entries = s.store.active.entries

theorem Still.refl (s : Session) : s.Still s := ⟨.refl s, rfl, rfl⟩

theorem Still.trans (h : s.Still t) (h' : t.Still u) : s.Still u :=
  ⟨h.toStands.trans h'.toStands, h'.scans.trans h.scans, h'.filed.trans h.filed⟩

def SiteHeld (s : Session) (op : SessionOp) : Prop :=
  ∀ site, op.site = some site → s.reach.holds site = true ∨
    ∃ element index page, op.page = some (site, element, index) ∧
      s.ranges.scans (site, element) = some page ∧ ∀ at_ ∈ index, at_ < page.entries.length

variable {op : SessionOp}

theorem siteHeld_of (hsite : op.site = some site) (h : s.reach.holds site = true) :
    s.SiteHeld op := by
  intro named hnamed
  obtain rfl := Option.some.inj (hsite.symm.trans hnamed)
  exact .inl h

structure Within (s : Session) (op : SessionOp) (a : OpAnswer) (t : Session) : Prop where
  issuance : t.issuance = s.issuance
  reach : t.reach = s.reach
  sites : t.sites = s.sites
  entries : t.entries = s.entries
  kept : op.walks = false → t.ranges.scans = s.ranges.scans ∧
    t.store.active.entries = s.store.active.entries
  queue : op.settles = false → t.store.active.pendingDeltas = s.store.active.pendingDeltas
  moves : Buckets.Moves op.buckets op.opens s.buckets a t.buckets
  site : s.SiteHeld op
  granted : op.Granted s.issuance s

end Session

end HyperscaleVm.Kernel

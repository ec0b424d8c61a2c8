import HyperscaleVm.Kernel.Session.Trail

/-!
# What an operation leaves

One inversion for each operation: where it answers, it made one deed in the books, left
the setting alone, kept to its frame, and logged what its capability stands for.
-/

namespace HyperscaleVm.Kernel
open List Library Buckets

namespace Session

variable {s t : Session} {site element : ℕ}

/-- What is seen, not done: books and setting are both as before. -/
def Quiet (s t : Session) : Prop := t.books = s.books ∧ t.setting = s.setting

theorem Quiet.refl (s : Session) : s.Quiet s := ⟨rfl, rfl⟩

variable {u : Session}

theorem Quiet.trans (h : s.Quiet t) (h' : t.Quiet u) : s.Quiet u :=
  ⟨h'.1.trans h.1, h'.2.trans h.2⟩

def Looks (s t : Session) : Prop := s.Quiet t ∧ t.ranges.written = s.ranges.written

theorem Looks.refl (s : Session) : s.Looks s := ⟨.refl s, rfl⟩

theorem Looks.trans (h : s.Looks t) (h' : t.Looks u) : s.Looks u :=
  ⟨h.1.trans h'.1, h'.2.trans h.2⟩

variable {op : SessionOp}

theorem Looks.makes (h : s.Looks t) (hplain : Deed.nothing.Fits s op) : s.Makes op t :=
  ⟨.nothing, trivial, hplain, h.1.1, h.1.2, h.2⟩

def EachWritten (P : Interval → Finset ℕ → Prop) (s : Session) : Prop :=
  ∀ (rep : ℕ) (held : Capability) (interval : Interval), s.table[rep]? = some held →
    held.interval = some interval → P interval (s.ranges.written rep)

def WithinCaps : Session → Prop := EachWritten fun interval written => written.card ≤ interval.cap

def WithinBounds : Session → Prop :=
  EachWritten fun interval written => ∀ order ∈ written, interval.holds order = true

/-- What the log is accounted for over: a stored base, pages of their own intervals, no
capability past its cap or outside its bounds. -/
structure Sound (m : MemoryStore) (s : Session) : Prop where
  base : s.store.base = m.toBaseline
  paged : s.Paged
  within : s.WithinCaps
  inside : s.WithinBounds

variable {held : Capability}

theorem Sound.roomy {m : MemoryStore} (h : s.Sound m) {rep : ℕ}
    {interval : Interval} (htable : s.table[rep]? = some held)
    (hof : held.interval = some interval) : s.Roomy rep interval.cap :=
  fun hwritten => (Finset.card_pos.mpr hwritten).trans_le (h.within rep held interval htable hof)

structure Leaves (s : Session) (op : SessionOp) (a : OpAnswer) (t : Session) : Prop where
  makes : s.Makes op t
  within : s.Within op a t
  follows : op.gateTarget = none → ∀ {m : MemoryStore}, s.Sound m → Follows s t

variable {a : OpAnswer}

theorem Looks.leaves (h : s.Looks t) (hstands : s.Stands t)
    (hscans : op.walks = false → t.ranges.scans = s.ranges.scans) (hplain : Deed.nothing.Fits s op)
    (hbuckets : op.buckets = [] ∧ op.opens = false) (hsite : s.SiteHeld op)
    (hgranted : op.Granted s.issuance s)
    (hfollows : op.gateTarget = none → ∀ {m : MemoryStore}, s.Sound m → Follows s t) :
    s.Leaves op a t where
  makes := h.makes hplain
  within :=
    { issuance := hstands.issuance
      reach := hstands.reach
      sites := hstands.sites
      entries := hstands.entries
      kept := fun hwalks => ⟨hscans hwalks, congrArg Books.entries h.1.1⟩
      queue := fun _ => hstands.queue
      moves := by
        rw [hbuckets.1, hbuckets.2, hstands.buckets]
        exact still_moves _ _
      site := hsite
      granted := hgranted }
  follows := hfollows

theorem logged_leaves {accesses : List Access} (hplain : Deed.nothing.Fits s op)
    (hbuckets : op.buckets = [] ∧ op.opens = false) (hsite : s.SiteHeld op)
    (hgranted : op.Granted s.issuance s)
    (hadmits : op.gateTarget = none → ∀ access ∈ accesses, s.Admits access) :
    s.Leaves op a (s.logged accesses) :=
  Looks.leaves ⟨⟨rfl, rfl⟩, rfl⟩ ⟨rfl, rfl, rfl, rfl, rfl, rfl, rfl⟩ (fun _ => rfl) hplain
    hbuckets hsite
    hgranted fun hgate _ _ => logged_follows (hadmits hgate)

structure Apart (s t : Session) : Prop where
  store : t.store = s.store
  ranges : t.ranges = s.ranges
  issuance : t.issuance = s.issuance
  reach : t.reach = s.reach
  sites : t.sites = s.sites
  entries : t.entries = s.entries
  table : t.table = s.table

theorem Apart.leaves (h : s.Apart t) (hmakes : s.Makes op t)
    (hmoves : Buckets.Moves op.buckets op.opens s.buckets a t.buckets) (hsite : s.SiteHeld op)
    (hgranted : op.Granted s.issuance s) : s.Leaves op a t where
  makes := hmakes
  within :=
    { issuance := h.issuance
      reach := h.reach
      sites := h.sites
      entries := h.entries
      kept := fun _ => by rw [h.store, h.ranges]; exact ⟨rfl, rfl⟩
      queue := fun _ => by rw [h.store]
      moves := hmoves
      site := hsite
      granted := hgranted }
  follows _ _ _ := .same (by rw [h.store]) h.sites h.entries h.table (by rw [h.ranges])

theorem noSite (h : op.site = none) : s.SiteHeld op := by
  intro site hsite
  cases h.symm.trans hsite

theorem told_leaves (hplain : Deed.nothing.Fits s op)
    (hmoves : Buckets.Moves op.buckets op.opens s.buckets a s.buckets) (hsite : s.SiteHeld op)
    (hgranted : op.Granted s.issuance s) : s.Leaves op a s :=
  Apart.leaves ⟨rfl, rfl, rfl, rfl, rfl, rfl, rfl⟩ ((Looks.refl s).makes hplain) hmoves
    hsite hgranted

variable {value : Bytes} {key : SubstateKey}

theorem cellGet_leaves (h : s.cellGet site element = .ok (t, value)) :
    s.Leaves (.cellGet site element) a t := by
  obtain ⟨key, hkey, h⟩ := bind_ok.mp h
  cases h
  refine logged_leaves trivial ⟨rfl, rfl⟩ (siteHeld_of rfl (actingKey_reach hkey)) trivial fun _ =>
    ?_
  simpa using admits_read (.inl rfl) hkey

theorem holds_write {op : Op} (hop : op = .write ∨ op = .clear ∨ op = .seal)
    (h : s.actingKey site element op = .ok key) :
    ∃ rep r, Deed.Holds s.setting rep (.write key) r := by
  obtain ⟨held, hacting, hkey⟩ := actingKey_ok h
  obtain ⟨rep, -, htable, hjudges, hgrants⟩ := acting_ok hacting
  obtain ⟨key', rfl⟩ : ∃ key', held = .write key' := by
    rcases hop with rfl | rfl | rfl <;> cases held <;>
      first | exact ⟨_, rfl⟩ | cases hgrants
  obtain rfl := Option.some.inj hkey
  exact ⟨rep, _, htable, rfl, hjudges⟩

theorem checkValueLen_ok {length width : ℕ} (h : checkValueLen length width = .ok ()) :
    length ≤ width := by
  unfold checkValueLen at h
  split at h
  · cases h
  · omega

theorem written_leaves {attempted : Op} (reads : List Access) (value : Option Bytes)
    (hop : attempted = .write ∨ attempted = .clear ∨ attempted = .seal)
    (hkey : s.actingKey site element attempted = .ok key)
    (hreads : ∀ access ∈ reads, s.Admits access)
    (hcharges : (Deed.setCell key value).Charges s t op) (hsite : op.site = some site)
    (hplain : (Deed.setCell key value).Fits s op) (hbuckets : op.buckets = [] ∧ op.opens = false)
    (hgranted : op.Granted s.issuance s) (hwritten : t = { s with store := { s.store with
      log := s.store.log ++ (reads ++ [⟨.point key, .write⟩])
      active := { s.store.active with cells := s.store.active.cells.insert key value } } }) :
    s.Leaves op a t := by
  subst hwritten
  have hadmits : ∀ access ∈ reads ++ [⟨.point key, .write⟩], s.Admits access := by
    intro access haccess
    rcases mem_append.mp haccess with haccess | haccess
    · exact hreads access haccess
    · rw [mem_singleton.mp haccess]
      exact admits_write hop hkey
  refine ⟨⟨.setCell key value, holds_write hop hkey, hplain, rfl, rfl, hcharges⟩,
    ⟨rfl, rfl, rfl, rfl, fun _ => ⟨rfl, rfl⟩, fun _ => rfl, ?_,
      siteHeld_of hsite (actingKey_reach hkey), hgranted⟩,
    fun _ _ _ => .marks rfl hadmits rfl rfl rfl id⟩
  rw [hbuckets.1, hbuckets.2]
  exact still_moves _ _

theorem writeCellSet_leaves (h : s.writeCellSet site element value = .ok t) :
    s.Leaves (.writeCellSet site element value) a t := by
  obtain ⟨key, hkey, h⟩ := bind_ok.mp h
  obtain ⟨hlen, h⟩ := seq_ok.mp h
  cases h
  refine written_leaves [] (some value) (.inl rfl) hkey nofun ⟨rfl, ?_⟩ rfl trivial ⟨rfl, rfl⟩
    trivial rfl
  rintro v ⟨⟩
  exact .inl (checkValueLen_ok hlen)

theorem writeCellClear_leaves (h : s.writeCellClear site element = .ok t) :
    s.Leaves (.writeCellClear site element) a t := by
  obtain ⟨key, hkey, h⟩ := bind_ok.mp h
  cases h
  exact written_leaves [] none (.inr (.inl rfl)) hkey nofun ⟨rfl, nofun⟩ rfl trivial ⟨rfl, rfl⟩
    trivial rfl

theorem sealCell_leaves (h : s.sealCell site element = .ok t) :
    s.Leaves (.sealCell site element) a t := by
  obtain ⟨key, hkey, h⟩ := bind_ok.mp h
  obtain ⟨-, h⟩ := seq_ok.mp h
  cases h
  have hread : s.Admits ⟨.point key, .read⟩ := admits_read (.inr (.inl rfl)) hkey
  refine written_leaves [⟨.point key, .read⟩] (some (sealBytes s.env.epoch)) (.inr (.inr rfl)) hkey
    (by simpa using hread) ⟨rfl, ?_⟩ rfl trivial ⟨rfl, rfl⟩ trivial ?_
  · rintro v ⟨⟩
    exact .inr ⟨site, element, rfl, hkey, rfl⟩
  · simp only [OverlayStore.read, OverlayStore.write, OverlayStore.record, append_assoc]

theorem openSeal_leaves {word : Drawn} (h : s.openSeal site element = .ok (t, word)) :
    s.Leaves (.openSeal site element) a t := by
  obtain ⟨key, hkey, h⟩ := bind_ok.mp h
  simp only [declaredCell, readCell] at h
  obtain ⟨epoch, -, h⟩ := bind_ok.mp h
  obtain rfl : t = s.logged [⟨.point key, .read⟩] := by split at h <;> cases h <;> rfl
  refine logged_leaves trivial ⟨rfl, rfl⟩ (siteHeld_of rfl (actingKey_reach hkey)) trivial fun _ =>
    ?_
  simpa using admits_read (.inr (.inr (.inl rfl))) hkey

theorem emit_leaves {eventType : ℕ} {payload : Bytes} (h : s.emit eventType payload = .ok t) :
    s.Leaves (.emit eventType payload) a t := by
  unfold emit at h
  split at h
  · cases h
  simp only [seq_ok] at h
  obtain ⟨-, -, -, -, -, h⟩ := h
  cases h
  exact Apart.leaves ⟨rfl, rfl, rfl, rfl, rfl, rfl, rfl⟩ (Looks.makes ⟨⟨rfl, rfl⟩, rfl⟩ trivial)
    (still_moves _ _) (noSite rfl) trivial

variable {n : ℕ}

theorem amountCell_ok (h : s.amountCell key = .ok (t, n)) : t = s.logged [⟨.point key, .read⟩] := by
  simp only [amountCell, declaredCell, readCell] at h
  obtain ⟨committed, -, total, -, h⟩ := binds_ok.mp h
  cases h
  rfl

theorem amountCellBalance_leaves (h : s.amountCellBalance site element = .ok (t, n)) :
    s.Leaves (.amountCellBalance site element) a t := by
  obtain ⟨key, hkey, h⟩ := bind_ok.mp h
  obtain rfl := amountCell_ok h
  refine logged_leaves trivial ⟨rfl, rfl⟩ (siteHeld_of rfl (actingKey_reach hkey)) trivial fun _ =>
    ?_
  simpa using admits_read (.inr (.inr (.inr rfl))) hkey

variable {settlement : Settlement}

theorem settling_ok {op : Op}
    (h : settling site element held op = .ok settlement) : held.settlement = some settlement := by
  unfold settling at h
  split at h
  · rename_i heq
    cases h
    exact heq
  · cases h

variable {amount : ℕ}

theorem judged_ok (h : s.judgeTake amount settlement = .ok (t, key) ∨
      s.judgePut amount settlement = .ok (t, key)) :
    ∃ reads, t = s.logged reads ∧ Judged settlement key reads := by
  cases settlement with
  | immediate key' =>
    rcases h with h | h
    all_goals
      obtain ⟨⟨u, standing⟩, hamount, h⟩ := bind_ok.mp h
      dsimp only at h
      split at h
      · cases h
        exact ⟨_, amountCell_ok hamount, .inl ⟨rfl, rfl⟩⟩
      · cases h
  | queued key' =>
    rcases h with h | h
    all_goals
      cases h
      exact ⟨[], by rw [logged, append_nil], .inr ⟨rfl, rfl⟩⟩

variable {reads : List Access}

theorem Judged.settles (h : Judged settlement key reads)
    (hsettles : held.settlement = some settlement) :
    held.settlement = some (.immediate key) ∨ held.settlement = some (.queued key) :=
  h.elim (fun ⟨hnow, _⟩ => .inl (hnow ▸ hsettles)) fun ⟨hqueued, _⟩ => .inr (hqueued ▸ hsettles)

theorem moved_follows (delta : DeltaOp)
    (hadmits : (∀ access ∈ reads, s.Admits access) ∧ s.Admits ⟨.point key, .delta⟩) :
    Follows s ((s.logged reads).queueDelta key delta) := by
  refine .marks (append_assoc ..) (fun access haccess => ?_) rfl rfl rfl id
  rcases mem_append.mp haccess with haccess | haccess
  · exact hadmits.1 access haccess
  · rw [mem_singleton.mp haccess]
    exact hadmits.2

variable {rep : ℕ}

theorem cellTake_leaves (h : s.cellTake site element amount = .ok (t, rep)) :
    s.Leaves (.cellTake site element amount) (.number rep) t := by
  obtain ⟨held, hheld, resource, hresource, h⟩ := binds_ok.mp h
  obtain ⟨settlement, hsettlement, ⟨u, key⟩, hjudge, h⟩ := binds_ok.mp h
  cases h
  obtain ⟨reads, rfl, hjudged⟩ := judged_ok (.inl hjudge)
  obtain ⟨rep', -, hholds⟩ := holds_of_acting hheld hresource
  have hsettles := settling_ok hsettlement
  have hmoved := moved_follows (.sub amount) (admits_settlement hholds.1 hsettles hjudged)
  exact ⟨⟨.debit key amount resource, ⟨rep', held, hholds, hjudged.settles hsettles⟩, trivial, rfl,
    rfl, rfl⟩, ⟨rfl, rfl, rfl, rfl, fun _ => ⟨rfl, rfl⟩, nofun, opened_moves s.buckets _ _ _,
      siteHeld_of rfl (acting_reach hheld), trivial⟩,
    fun _ _ _ => hmoved.trans (.same rfl rfl rfl rfl rfl)⟩

variable {funds : ℕ}

theorem cellPut_leaves (h : s.cellPut site element funds = .ok t) :
    s.Leaves (.cellPut site element funds) a t := by
  obtain ⟨held, hheld, h⟩ := bind_ok.mp h
  obtain ⟨hcredit, h⟩ := seq_ok.mp h
  obtain ⟨amount, hamount, settlement, hsettlement, h⟩ := binds_ok.mp h
  obtain ⟨⟨u, key⟩, hjudge, ⟨b, taken⟩, htake, h⟩ := binds_ok.mp h
  cases h
  obtain ⟨resource, hresource, hcarried⟩ := judgeCredit_ok hcredit
  obtain ⟨reads, rfl, hjudged⟩ := judged_ok (.inr hjudge)
  obtain ⟨rep', -, hholds⟩ := holds_of_acting hheld hresource
  have hsettles := settling_ok hsettlement
  have hmoved := moved_follows (.add amount) (admits_settlement hholds.1 hsettles hjudged)
  have hmoves : Buckets.Moves [funds] false s.buckets a b := take_moves htake
  obtain ⟨-, rfl⟩ := take_ok htake
  exact ⟨⟨.credit key amount funds, ⟨rep', held, resource, hholds, hjudged.settles hsettles,
      amount_ok hamount, resourceOf_ok hcarried⟩, trivial, rfl, rfl, rfl⟩,
    ⟨rfl, rfl, rfl, rfl, fun _ => ⟨rfl, rfl⟩, nofun, hmoves, siteHeld_of rfl (acting_reach hheld),
      trivial⟩,
    fun _ _ _ => hmoved.trans (.same rfl rfl rfl rfl rfl)⟩

theorem reserved_ok {op : Op} (h : s.reserved site element op = .ok amount) :
    ∃ key, s.acting site element op = .ok (.reserve key amount) ∧
      (s.store.heldReservation key s.tx).isSome := by
  obtain ⟨held, hheld, h⟩ := bind_ok.mp h
  cases held with
  | reserve key amount' =>
    simp only at h
    split at h
    · rename_i hsome
      cases h
      exact ⟨key, hheld, by rw [hsome]; rfl⟩
    · cases h
  | _ => cases h

theorem reserveTake_leaves (h : s.reserveTake site element = .ok (t, rep)) :
    s.Leaves (.reserveTake site element) (.number rep) t := by
  obtain ⟨amount, hamount, resource, hresource, h⟩ := binds_ok.mp h
  obtain ⟨at_, hat, h⟩ := bind_ok.mp h
  obtain ⟨key, hacting, hstanding⟩ := reserved_ok hamount
  obtain ⟨rep', hrep', hholds⟩ := holds_of_acting hacting hresource
  obtain rfl : at_ = rep' := Except.ok.inj (hat.symm.trans hrep')
  split at h
  · cases h
  rename_i hfresh
  cases h
  have horigin : s.cellAt at_ = some key := by
    have htable : s.table[at_]? = some (.reserve key amount) := hholds.1
    rw [cellAt, htable]
  exact Apart.leaves ⟨rfl, rfl, rfl, rfl, rfl, rfl, rfl⟩
    ⟨.takeReserved at_ amount resource (s.cellAt at_),
      ⟨hfresh, key, hholds, horigin, hstanding⟩, trivial, rfl, rfl, rfl⟩
    (opened_moves s.buckets _ _ _) (siteHeld_of rfl (acting_reach hacting)) trivial

variable {off : ℕ}

theorem divided_leaves {held part : ℕ} {resource : ResourceAddr}
    (hheld : s.buckets.amount rep = .ok held)
    (hresource : s.buckets.resourceOf rep = .ok resource) (hle : part ≤ held)
    (hplain : (Deed.split rep (held - part) part resource (s.buckets.originOf rep)).Fits s op)
    (hmoves : Buckets.Moves op.buckets op.opens s.buckets a
      (s.buckets.divide rep (held - part) part resource).1) (hsite : op.site = none)
    (hgranted : op.Granted s.issuance s) :
    s.Leaves op a { s with buckets := (s.buckets.divide rep (held - part) part resource).1 } := by
  have hslot : s.buckets.slots[rep]? = some (some (.amount (held - part + part))) := by
    rw [Nat.sub_add_cancel hle]
    exact amount_ok hheld
  exact Apart.leaves ⟨rfl, rfl, rfl, rfl, rfl, rfl, rfl⟩
    ⟨.split rep (held - part) part resource (s.buckets.originOf rep),
    ⟨⟨hslot, resourceOf_ok hresource⟩, rfl⟩, hplain, rfl, rfl, rfl⟩ hmoves (noSite hsite) hgranted

theorem bucketTake_leaves (h : s.bucketTake rep amount = .ok (t, off)) :
    s.Leaves (.bucketTake rep amount) (.number off) t := by
  obtain ⟨⟨b, off'⟩, hsplit, h⟩ := bind_ok.mp h
  cases h
  have hmoves := split_moves hsplit
  obtain ⟨held, hheld, resource, hresource, h⟩ := binds_ok.mp hsplit
  split at h
  · rename_i hle
    cases h
    exact divided_leaves hheld hresource hle trivial hmoves rfl trivial
  · cases h

theorem bucketSplit_leaves {num den : ℕ} (h : s.bucketSplit rep num den = .ok (t, off)) :
    s.Leaves (.bucketSplit rep num den) (.number off) t := by
  obtain ⟨⟨b, off'⟩, hsplit, h⟩ := bind_ok.mp h
  cases h
  have hmoves := splitShare_moves hsplit
  obtain ⟨held, hheld, h⟩ := bind_ok.mp hsplit
  split at h
  · cases h
  split at h
  · cases h
  dsimp only at h
  split at h
  · cases h
  obtain ⟨resource, hresource, h⟩ := bind_ok.mp h
  split at h
  · rename_i hle
    cases h
    exact divided_leaves hheld hresource hle trivial hmoves rfl trivial
  · cases h

theorem bucketPut_leaves {other : ℕ} (h : s.bucketPut rep other = .ok t) :
    s.Leaves (.bucketPut rep other) a t := by
  obtain ⟨b, hmerge, h⟩ := bind_ok.mp h
  cases h
  have hmoves : Buckets.Moves [rep, other] false s.buckets a b := merge_moves hmerge
  obtain ⟨into, hinto, carried, hcarried, h⟩ := binds_ok.mp hmerge
  split at h
  · cases h
  rename_i hsame
  obtain rfl := not_not.mp hsame
  obtain ⟨⟨left, added⟩, htake, held, hheld, h⟩ := binds_ok.mp h
  obtain ⟨total, htotal, h⟩ := bind_ok.mp h
  cases h
  obtain ⟨hadded, rfl⟩ := take_ok htake
  obtain ⟨hslot, -⟩ := get_ok hheld
  have hmix : (s.buckets.mixOrigin rep other).slots = s.buckets.slots ∧
      (s.buckets.mixOrigin rep other).resources = s.buckets.resources ∧
      (s.buckets.mixOrigin rep other).origins.length = s.buckets.origins.length := by
    unfold mixOrigin
    split
    · exact ⟨rfl, rfl, rfl⟩
    · exact ⟨rfl, rfl, length_set ..⟩
  simp only [hmix.1] at hadded hslot
  have hne : rep ≠ other := by
    rintro rfl
    rw [getElem?_set_self'] at hslot
    simp [hadded] at hslot
  rw [getElem?_set_ne hne.symm] at hslot
  refine Apart.leaves ⟨rfl, rfl, rfl, rfl, rfl, rfl, rfl⟩
    ⟨.merge rep other total (s.buckets.mixOrigin rep other).origins, ⟨held, added, into, hne,
      ⟨hslot, resourceOf_ok hinto⟩, ⟨hadded, resourceOf_ok hcarried⟩, htotal, hmix.2.2⟩,
      trivial, ?_, rfl, rfl⟩ hmoves (noSite rfl) trivial
  change Books.mk _ _ _
    ((((s.buckets.mixOrigin rep other).slots.set other none)).set rep (some total))
    (s.buckets.mixOrigin rep other).resources _ _ _ _ _ = _
  rw [hmix.1, hmix.2.1]
  rfl

theorem dropBucket_leaves (h : s.dropBucket rep = .ok t) : s.Leaves (.dropBucket rep) a t := by
  obtain ⟨b, hdrop, h⟩ := bind_ok.mp h
  cases h
  refine Apart.leaves ⟨rfl, rfl, rfl, rfl, rfl, rfl, rfl⟩ ?_ (drop_moves hdrop) (noSite rfl) trivial
  obtain ⟨held, hheld, h⟩ := bind_ok.mp hdrop
  split at h
  · rename_i hempty
    obtain ⟨⟨b', held'⟩, htake, h⟩ := bind_ok.mp h
    cases h
    obtain ⟨-, rfl⟩ := take_ok htake
    have hzero : held.quantity = 0 := by simpa [Held.isEmpty] using hempty
    exact ⟨.discard rep, ⟨held, _, (get_ok hheld).1, hzero, rfl⟩, trivial, rfl, rfl, rfl⟩
  · cases h
    exact (Looks.refl _).makes trivial

variable {grant : ℕ} {resource : ResourceAddr}

theorem issued_grant {kind : Effects.ResourceKind} (h : s.issued grant kind = .ok resource) :
    ∃ held, s.issuance[grant]? = some held ∧ held.direction.mints = true := by
  unfold issued at h
  split at h
  · rename_i held hheld
    split at h
    · cases h
    · rename_i hmints
      exact ⟨held, hheld, by simpa using hmints⟩
  · cases h

theorem mint_leaves (h : s.mint grant amount = .ok (t, rep)) :
    s.Leaves (.mint grant amount) (.number rep) t := by
  obtain ⟨resource, hissued, supply, hsupply, h⟩ := binds_ok.mp h
  cases h
  exact Apart.leaves ⟨rfl, rfl, rfl, rfl, rfl, rfl, rfl⟩
    ⟨.mint (.amount amount) resource supply, mapError_ok.mp hsupply, ⟨resource, supply, rfl⟩, rfl,
      rfl, rfl⟩
    (opened_moves s.buckets _ _ _) (noSite rfl) (issued_grant hissued)

variable {ids : List ℕ}

theorem distinctIds_ok {ids' : List ℕ} (h : distinctIds ids = .ok ids') :
    ids' = ids ∧ ids.Nodup := by
  unfold distinctIds at h
  split at h
  · rename_i hids
    cases h
    exact ⟨rfl, hids.2⟩
  · cases h

theorem mintInstances_leaves (h : s.mintInstances grant ids = .ok (t, rep)) :
    s.Leaves (.mintInstances grant ids) (.number rep) t := by
  obtain ⟨resource, hissued, ids', hids, h⟩ := binds_ok.mp h
  obtain ⟨supply, hsupply, h⟩ := bind_ok.mp h
  cases h
  obtain ⟨rfl, -⟩ := distinctIds_ok hids
  exact Apart.leaves ⟨rfl, rfl, rfl, rfl, rfl, rfl, rfl⟩
    ⟨.mint (.instances ids'.toFinset) resource supply, mapError_ok.mp hsupply,
      ⟨resource, supply, hissued, rfl⟩, rfl, rfl, rfl⟩
    (opened_moves s.buckets _ _ _) (noSite rfl) (issued_grant hissued)

theorem burn_leaves (h : s.burn funds = .ok t) : s.Leaves (.burn funds) a t := by
  obtain ⟨carried, hcarried, h⟩ := bind_ok.mp h
  split at h
  · cases h
  rename_i grant hgrant
  obtain ⟨held, hheld, supply, hsupply, h⟩ := binds_ok.mp h
  obtain ⟨⟨b, taken⟩, htake, h⟩ := bind_ok.mp h
  cases h
  have hcovers := find?_some hgrant
  simp only [Bool.and_eq_true, decide_eq_true_eq] at hcovers
  have hresource := resourceOf_ok hcarried
  have hmoves : Buckets.Moves [funds] false s.buckets a b := take_moves htake
  obtain ⟨-, rfl⟩ := take_ok htake
  rw [hcovers.1] at hsupply
  refine Apart.leaves ⟨rfl, rfl, rfl, rfl, rfl, rfl, rfl⟩ ⟨.burn funds supply, ⟨held, carried,
      ⟨(get_ok hheld).1, hresource⟩, mapError_ok.mp hsupply⟩, ⟨supply, rfl⟩, rfl, rfl, rfl⟩
    hmoves (noSite rfl) ⟨grant, mem_of_find?_eq_some hgrant, hcovers.2, ?_⟩
  rw [hcovers.1]
  exact hresource

theorem recordCrossing_ok (h : s.recordCrossing key value = .ok t) :
    t = { s with crossings := s.crossings.insert key value } := by
  unfold recordCrossing at h
  split at h
  · cases h
  · cases h
    rfl

theorem escrowOut_leaves {node output : ℕ} {departure : Departure} {crossed : Crossed}
    (h : s.escrowOut node output funds departure = .ok (t, crossed)) :
    s.Leaves (.escrowOut node output funds departure) a t := by
  obtain ⟨resource, hresource, amount, hamount, h⟩ := binds_ok.mp h
  obtain ⟨terms, -, u, htake, h⟩ := binds_ok.mp h
  obtain ⟨escrow, hescrow, v, hrecord, h⟩ := binds_ok.mp h
  cases h
  obtain ⟨⟨b, held⟩, hbucket, htake⟩ := bind_ok.mp htake
  cases htake
  have hmoves : Buckets.Moves [funds] false s.buckets a b := take_moves hbucket
  obtain ⟨-, rfl⟩ := take_ok hbucket
  obtain rfl := recordCrossing_ok hrecord
  exact Apart.leaves ⟨rfl, rfl, rfl, rfl, rfl, rfl, rfl⟩
    ⟨.issue node output funds ⟨resource, amount⟩ departure.record _ escrow,
      ⟨⟨amount_ok hamount, resourceOf_ok hresource⟩, mapError_ok.mp hescrow⟩,
      ⟨_, _, _, rfl⟩, rfl, rfl, rfl⟩ hmoves (noSite rfl) trivial

theorem escrowIn_leaves {arrival : Arrival} (h : s.escrowIn arrival = .ok (t, rep)) :
    s.Leaves (.escrowIn arrival) (.number rep) t := by
  unfold escrowIn at h
  split at h
  · cases h
  obtain ⟨escrow, hescrow, u, hrecord, h⟩ := binds_ok.mp h
  cases h
  obtain rfl := recordCrossing_ok hrecord
  exact Apart.leaves ⟨rfl, rfl, rfl, rfl, rfl, rfl, rfl⟩
    ⟨.claim arrival.crossed arrival.claim _ escrow, mapError_ok.mp hescrow, ⟨_, _, rfl⟩, rfl,
      rfl, rfl⟩
    (opened_moves s.buckets _ _ _) (noSite rfl) trivial

end Session

end HyperscaleVm.Kernel

import HyperscaleVm.Kernel.Session.Leaves

/-!
# Every step is a deed
-/

namespace HyperscaleVm.Kernel
open List Option Library

namespace Session

variable {s t u : Session} {site element : ℕ} {op : SessionOp} {a : OpAnswer} {value : Bytes}
  {key : SubstateKey} {n amount rep funds : ℕ} {ids : List ℕ}

variable {page : Scan}

theorem scan_looks (h : s.scan site element = .ok (t, page)) : s.Looks t ∧ s.Stands t ∧
    (s.reach.holds site = true ∨ s.ranges.scans (site, element) = some page) := by
  unfold scan at h
  split at h
  · rename_i held hheld
    cases h
    exact ⟨.refl s, .refl s, .inr hheld⟩
  · obtain ⟨interval, hinterval, h⟩ := bind_ok.mp h
    cases h
    exact ⟨⟨⟨rfl, rfl⟩, rfl⟩, ⟨rfl, rfl, rfl, rfl, rfl, rfl, rfl⟩,
      .inl (actingInterval_reach hinterval)⟩

theorem Stands.repAt (h : s.Stands t) : t.repAt site element = s.repAt site element := by
  unfold Session.repAt entry Session.site
  rw [h.sites, h.entries, h.reach]

theorem scan_follows {m : MemoryStore} (hsound : s.Sound m)
    (h : s.scan site element = .ok (t, page)) :
    Follows s t ∧ t.PageAt site element page := by
  unfold scan at h
  split at h
  · rename_i held hheld
    cases h
    exact ⟨.refl s, hsound.paged hheld⟩
  · obtain ⟨interval, hinterval, h⟩ := bind_ok.mp h
    cases h
    obtain ⟨rep, held, hrep, htable, hof, -⟩ := actingInterval_table hinterval
    have hread : s.Admits ⟨.range interval.owner interval.collection interval.lo interval.hi
        interval.cap, .read⟩ :=
      admits_interval htable hof ⟨_, _, _, rfl, Nat.le_refl _, .inl ⟨rfl, rfl⟩⟩
    have hlift := logged_follows (forall_mem_singleton.mpr hread)
    have hpage : s.PageAt site element ⟨(s.lift interval.owner interval.collection interval.lo
        interval.hi interval.cap).2, none⟩ :=
      ⟨rep, held, interval, names_of_repAt hrep, htable, hof,
        fun p hp => mem_mergedEntries hsound.base hp⟩
    have hfollows := hlift.trans (holdScan_follows (hlift.pageAt.mpr hpage))
    exact ⟨hfollows, hfollows.pageAt.mpr hpage⟩

theorem Picks.holds {m : MemoryStore} (h : s.Picks interval order) (hsound : s.Sound m) :
    interval.holds order = true := by
  rcases h with hholds | ⟨site, element, t, page, found, hinterval, hscan, hmem⟩
  · exact hholds
  · obtain ⟨hfollows, hpage⟩ := scan_follows hsound hscan
    exact holds_iff.mpr ((hfollows.pageAt.mp hpage).within hinterval _ hmem)

variable {index : ℕ}

theorem indexed_bound {found : ℕ × Bytes}
    (h : indexed page index = .ok found) : ∀ at_ ∈ some index, at_ < page.entries.length := by
  intro at_ hat
  obtain rfl := some.inj hat
  unfold indexed at h
  split at h
  · rename_i hfound
    exact (List.getElem?_eq_some_iff.mp hfound).1
  · cases h

theorem paged_leaves {at_ : Option ℕ} (hscan : s.scan site element = .ok (t, page))
    (hindex : ∀ index ∈ at_, index < page.entries.length)
    (hpage : op.page = some (site, element, at_)) (hsite : op.site = some site) :
    s.Leaves op a t := by
  obtain ⟨hlooks, hstands, hheld⟩ := scan_looks hscan
  have hquiet : op.walks = true ∧ Deed.nothing.Fits s op ∧ (op.buckets = [] ∧ op.opens = false) ∧
      op.Granted s.issuance s := by
    cases op <;> cases hpage <;> exact ⟨rfl, trivial, ⟨rfl, rfl⟩, trivial⟩
  obtain ⟨hwalks, hplain, hbuckets, hgranted⟩ := hquiet
  refine hlooks.leaves hstands (fun hnot => by cases hwalks.symm.trans hnot) hplain hbuckets
    ?_ hgranted
    fun _ _ hsound => (scan_follows hsound hscan).1
  intro named hnamed
  obtain rfl := some.inj (hsite.symm.trans hnamed)
  exact hheld.imp id fun hheld => ⟨element, at_, page, hpage, hheld, hindex⟩

theorem rangeCount_leaves (h : s.rangeCount site element = .ok (t, n)) :
    s.Leaves (.rangeCount site element) a t := by
  obtain ⟨⟨u, page⟩, hscan, h⟩ := bind_ok.mp h
  cases h
  exact paged_leaves hscan (fun _ hnone => by cases hnone) rfl rfl

theorem rangeOrder_leaves (h : s.rangeOrder site element index = .ok (t, n)) :
    s.Leaves (.rangeOrder site element index) a t := by
  obtain ⟨⟨u, page⟩, hscan, found, hfound, h⟩ := binds_ok.mp h
  cases h
  exact paged_leaves hscan (indexed_bound hfound) rfl rfl

theorem rangeEntry_leaves (h : s.rangeEntry site element index = .ok (t, value)) :
    s.Leaves (.rangeEntry site element index) a t := by
  obtain ⟨⟨u, page⟩, hscan, found, hfound, h⟩ := binds_ok.mp h
  cases h
  exact paged_leaves hscan (indexed_bound hfound) rfl rfl

variable {interval : Interval}

theorem admits_resume {resume : ℕ} (hpage : s.PageAt site element page)
    (hinterval : s.intervalAt site element = .ok interval)
    (hresume : resumeAt interval page = some resume) (hcap : interval.cap ≠ 0) :
    s.Admits ⟨.range interval.owner interval.collection resume interval.hi 1, .read⟩ := by
  have hwithin := hpage.within hinterval
  obtain ⟨rep, held, -, htable, hof, -⟩ := actingInterval_table hinterval
  refine admits_interval htable hof ⟨_, _, _, rfl, Nat.one_le_iff_ne_zero.mpr hcap, .inr ?_⟩
  unfold resumeAt at hresume
  split at hresume
  · cases hresume
  rename_i hfull
  split at hresume
  · rename_i last value hlast
    split at hresume
    · cases hresume
    rename_i hend
    obtain rfl := some.inj hresume
    have hbounds := hwithin _ (mem_of_getLast? hlast)
    dsimp only at hbounds
    omega
  · rename_i hempty
    -- a page with no entry is short of its cap
    rw [getLast?_eq_none_iff] at hempty
    rw [hempty, length_nil] at hfull
    omega

variable {covered : Bool}

theorem rangeCovered_ok (h : s.rangeCovered site element = .ok (t, covered)) :
    ∃ u page interval, s.scan site element = .ok (u, page) ∧
      u.intervalAt site element = .ok interval ∧
      (t = u ∨ ∃ reads noted, t = (u.logged reads).holdScan site element
        { page with covered := noted } ∧
        (reads = [] ∨ ∃ resume, resumeAt interval page = some resume ∧ interval.cap ≠ 0 ∧
          reads = [⟨.range interval.owner interval.collection resume interval.hi 1, .read⟩])) := by
  obtain ⟨⟨u, page⟩, hscan, interval, hinterval, h⟩ := binds_ok.mp h
  refine ⟨u, page, interval, hscan, hinterval, ?_⟩
  have hnone : u.logged [] = u := by rw [logged, append_nil]
  dsimp only at h
  split at h
  · cases h
    exact .inl rfl
  cases h
  split
  · exact .inr ⟨[], _, by rw [hnone], .inl rfl⟩
  rename_i resume hresume
  split
  · exact .inr ⟨[], _, by rw [hnone], .inl rfl⟩
  · rename_i hcap
    exact .inr ⟨_, _, rfl, .inr ⟨resume, hresume, hcap, rfl⟩⟩

theorem rangeCovered_leaves (h : s.rangeCovered site element = .ok (t, covered)) :
    s.Leaves (.rangeCovered site element) a t := by
  obtain ⟨u, page, interval, hscan, hinterval, hnoted⟩ := rangeCovered_ok h
  obtain ⟨hlooks, hstands, -⟩ := scan_looks hscan
  -- the interval is resolved again, whatever answered the page
  have hreach : s.reach.holds site = true := hstands.reach ▸ actingInterval_reach hinterval
  have hafter : u.Looks t ∧ u.Stands t := by
    rcases hnoted with rfl | ⟨reads, noted, rfl, -⟩
    · exact ⟨.refl t, .refl t⟩
    · exact ⟨⟨⟨rfl, rfl⟩, rfl⟩, ⟨rfl, rfl, rfl, rfl, rfl, rfl, rfl⟩⟩
  refine (hlooks.trans hafter.1).leaves (hstands.trans hafter.2) nofun trivial ⟨rfl, rfl⟩
    (siteHeld_of rfl hreach) trivial fun _ m hsound => ?_
  obtain ⟨hfollows, hpage⟩ := scan_follows hsound hscan
  rcases hnoted with rfl | ⟨reads, noted, rfl, hreads⟩
  · exact hfollows
  have hlift : Follows u (u.logged reads) := by
    refine logged_follows ?_
    rcases hreads with rfl | ⟨resume, hresume, hcap, rfl⟩
    · exact nofun
    · exact forall_mem_singleton.mpr (admits_resume hpage hinterval hresume hcap)
  exact (hfollows.trans hlift).trans (holdScan_follows (hlift.pageAt.mpr hpage))

structure Billed (site element : ℕ) (s t : Session) (rep cap : ℕ) (orders : Finset ℕ) : Prop where
  quiet : s.Quiet t
  charge : Charge s t rep cap orders
  named : t.repAt site element = .ok rep

variable {cap : ℕ}

theorem Looks.billed (h : s.Looks t) (hrep : t.repAt site element = .ok rep) :
    Billed site element s t rep cap ∅ where
  quiet := h.1
  charge :=
    { only := fun _ => congrFun h.2 _
      joined := by rw [h.2, Finset.union_empty]
      within := by rw [h.2]; exact id }
  named := hrep

theorem Billed.trans {orders orders' : Finset ℕ}
    (h : Billed site element s t rep cap orders) (h' : Billed site element t u rep cap orders') :
    Billed site element s u rep cap (orders ∪ orders') where
  quiet := h.quiet.trans h'.quiet
  charge :=
    { only := fun hne => (h'.charge.only hne).trans (h.charge.only hne)
      joined := by rw [h'.charge.joined, h.charge.joined, Finset.union_assoc]
      within := fun hcap => h'.charge.within (h.charge.within hcap) }
  named := h'.named

variable {order : ℕ}

theorem chargeWrite_billed (hrep : s.repAt site element = .ok rep)
    (h : s.chargeWrite site element order cap = .ok t) :
    Billed site element s t rep cap {order} := by
  obtain ⟨rep', hrep', h⟩ := bind_ok.mp h
  obtain rfl : rep' = rep := Except.ok.inj (hrep'.symm.trans hrep)
  dsimp only at h
  split at h
  · cases h
  rename_i hroom
  cases h
  refine ⟨⟨rfl, rfl⟩, ⟨fun hne => if_neg hne, ?_, fun hcap => ?_⟩, hrep⟩
  · rw [Finset.union_comm, ← Finset.insert_eq]
    exact if_pos rfl
  · have hwritten : (if rep' = rep' then insert order (s.ranges.written rep')
        else s.ranges.written rep').card ≤ cap := by
      rw [if_pos rfl]
      by_cases hin : order ∈ s.ranges.written rep'
      · rwa [Finset.insert_eq_of_mem hin]
      · rw [Finset.card_insert_of_notMem hin]
        have hlt : ¬cap ≤ (s.ranges.written rep').card := fun hle => hroom ⟨hin, hle⟩
        omega
    exact hwritten

theorem chargeWrite_still (h : s.chargeWrite site element order cap = .ok t) :
    s.Still t ∧ Follows s t := by
  obtain ⟨rep, -, h⟩ := bind_ok.mp h
  dsimp only at h
  split at h
  · cases h
  · cases h
    exact ⟨⟨⟨rfl, rfl, rfl, rfl, rfl, rfl, rfl⟩, rfl, rfl⟩, .same rfl rfl rfl rfl rfl⟩

theorem holds_rangeWrite (h : s.actingInterval site element .writeEntries = .ok interval) :
    ∃ rep r, s.repAt site element = .ok rep ∧
      Deed.Holds s.setting rep (.rangeWrite interval) r := by
  obtain ⟨held, hacting, hinterval⟩ := actingInterval_ok h
  obtain ⟨rep, hrep, htable, hjudges, hgrants⟩ := acting_ok hacting
  obtain ⟨interval', rfl⟩ : ∃ interval', held = .rangeWrite interval' := by
    cases held <;> first | exact ⟨_, rfl⟩ | cases hgrants
  obtain rfl := some.inj hinterval
  exact ⟨rep, _, hrep, htable, rfl, hjudges⟩

def edited (s : Session) (interval : Interval) (order : ℕ) : Option Bytes → Session
  | some value => s.entrySet interval order value
  | none => s.entryClear interval order

def EditsEntry (s : Session) (site element : ℕ) (value : Option Bytes) (t : Session) : Prop :=
  ∃ (interval : Interval) (u v : Session) (order : ℕ),
    s.actingInterval site element .writeEntries = .ok interval ∧
    (∀ bytes, value = some bytes → bytes.length ≤ interval.width) ∧
    (u = s ∧ interval.holds order = true ∨
      ∃ page found, s.scan site element = .ok (u, page) ∧ (order, found) ∈ page.entries) ∧
    u.chargeWrite site element order interval.cap = .ok v ∧
    t = (v.edited interval order value).invalidate interval.owner interval.collection

theorem rangeSet_edits (h : s.rangeSet site element index value = .ok t) :
    s.EditsEntry site element (some value) t := by
  obtain ⟨interval, hinterval, h⟩ := bind_ok.mp h
  obtain ⟨hlen, h⟩ := seq_ok.mp h
  obtain ⟨⟨u, page⟩, hscan, ⟨order, old⟩, hfound, h⟩ := binds_ok.mp h
  obtain ⟨v, hcharge, h⟩ := bind_ok.mp h
  cases h
  refine ⟨interval, u, v, order, hinterval, ?_, .inr ⟨page, old, hscan, indexed_ok hfound⟩,
    hcharge, rfl⟩
  rintro bytes ⟨⟩
  exact checkValueLen_ok hlen

theorem rangeInsert_edits (h : s.rangeInsert site element order value = .ok t) :
    s.EditsEntry site element (some value) t := by
  obtain ⟨interval, hinterval, h⟩ := bind_ok.mp h
  obtain ⟨hlen, h⟩ := seq_ok.mp h
  split at h
  · cases h
  rename_i hholds
  obtain ⟨v, hcharge, h⟩ := bind_ok.mp h
  cases h
  refine ⟨interval, s, v, order, hinterval, ?_, .inl ⟨rfl, by simpa using hholds⟩, hcharge, rfl⟩
  rintro bytes ⟨⟩
  exact checkValueLen_ok hlen

theorem rangeRemove_edits (h : s.rangeRemove site element index = .ok t) :
    s.EditsEntry site element none t := by
  obtain ⟨interval, hinterval, ⟨u, page⟩, hscan, h⟩ := binds_ok.mp h
  obtain ⟨⟨order, old⟩, hfound, v, hcharge, h⟩ := binds_ok.mp h
  cases h
  exact ⟨interval, u, v, order, hinterval, nofun, .inr ⟨page, old, hscan, indexed_ok hfound⟩,
    hcharge, rfl⟩

theorem edited_stands (s : Session) (interval : Interval) (order : ℕ) (value : Option Bytes) :
    s.Stands (s.edited interval order value) := by
  cases value <;> exact ⟨rfl, rfl, rfl, rfl, rfl, rfl, rfl⟩

theorem edited_follows (value : Option Bytes)
    (h : s.Admits ⟨.entry interval.owner interval.collection order, .write⟩) :
    Follows s (s.edited interval order value) := by
  cases value <;> exact .marks rfl (forall_mem_singleton.mpr h) rfl rfl rfl id

theorem charge_of_written {cap : ℕ} {filed : Finset ℕ} (h : Charge s u rep cap filed)
    (hwritten : t.ranges.written = u.ranges.written) : Charge s t rep cap filed := by
  constructor
  all_goals
    rw [hwritten]
  exacts [h.1, h.2, h.3]

theorem EditsEntry.leaves {value : Option Bytes} (h : s.EditsEntry site element value t)
    (hop : op.writesAt = some (site, element, .writeEntries)) : s.Leaves op a t := by
  obtain ⟨interval, u, v, order, hinterval, hwidth, hchosen, hcharge, rfl⟩ := h
  have hplain : op.site = some site ∧ op.walks = true ∧ op.buckets = [] ∧ op.opens = false ∧
      (∀ key, (Deed.setEntry key value).Fits s op) ∧ op.Granted s.issuance s := by
    cases op <;> cases hop <;> exact ⟨rfl, rfl, rfl, rfl, fun _ => trivial, trivial⟩
  obtain ⟨hsite, hwalks, hbuckets, hopens, hfits, hgranted⟩ := hplain
  obtain ⟨hlooks, hstands, hpicks⟩ : s.Looks u ∧ s.Stands u ∧ s.Picks interval order := by
    rcases hchosen with ⟨rfl, hholds⟩ | ⟨page, found, hscan, hmem⟩
    · exact ⟨.refl u, .refl u, .inl hholds⟩
    · exact ⟨(scan_looks hscan).1, (scan_looks hscan).2.1,
        .inr ⟨_, _, u, page, found, hinterval, hscan, hmem⟩⟩
  obtain ⟨hcharged, hnoted⟩ := chargeWrite_still hcharge
  have hleft := (hstands.trans hcharged.toStands).trans (edited_stands v interval order value)
  constructor
  · obtain ⟨rep, r, hrep, hholds⟩ := holds_rangeWrite hinterval
    have hrep' : u.repAt site element = .ok rep := hstands.repAt.trans hrep
    have hlooked : Billed site element s u rep interval.cap ∅ := hlooks.billed hrep'
    have hbilled := hlooked.trans (chargeWrite_billed hrep' hcharge)
    rw [Finset.empty_union] at hbilled
    have hbooks : (v.edited interval order value).books =
        (Deed.setEntry ⟨interval.owner, interval.collection, order⟩ value).apply s.books := by
      rw [← hbilled.quiet.1]
      cases value <;> rfl
    have hwritten : (v.edited interval order value).ranges.written = v.ranges.written := by
      cases value <;> rfl
    have hcharges := charge_of_written hbilled.charge hwritten
    exact ⟨.setEntry ⟨interval.owner, interval.collection, order⟩ value,
      ⟨rep, interval, r, hholds, rfl, rfl⟩, hfits _, hbooks, hleft.setting,
      rep, interval, hholds.1, rfl, rfl, ⟨hcharges.only, hcharges.joined, hcharges.within⟩,
      hpicks, hwidth⟩
  · refine ⟨hleft.issuance, hleft.reach, hleft.sites, hleft.entries,
      fun hnot => (by cases hwalks.symm.trans hnot), fun _ => hleft.queue, ?_,
      siteHeld_of hsite (actingInterval_reach hinterval), hgranted⟩
    rw [hbuckets, hopens]
    exact hleft.buckets ▸ Buckets.still_moves _ _
  · intro _ m hsound
    have hfollows : Follows s u := by
      rcases hchosen with ⟨rfl, -⟩ | ⟨page, found, hscan, -⟩
      · exact .refl u
      · exact (scan_follows hsound hscan).1
    have horder := holds_iff.mp (hpicks.holds hsound)
    have hwrite := (admits_entry (.inl rfl) hinterval horder).of_follows (hfollows.trans hnoted)
    exact ((hfollows.trans hnoted).trans (edited_follows value hwrite)).trans
      (invalidate_follows ..)

theorem holdsEntry_of_quiet (h : s.Quiet t) (interval : Interval) (order : ℕ) :
    t.holdsEntry interval order = s.holdsEntry interval order := by
  have hactive : t.store.active.entries = s.store.active.entries := congrArg Books.entries h.1
  have hcommitted : t.store.committed = s.store.committed := congrArg Setting.committed h.2
  have hbase : t.store.base = s.store.base := congrArg Setting.base h.2
  unfold holdsEntry OverlayStore.mergedEntries
  rw [hactive, hcommitted, hbase]

def probing (interval : Interval) (order : ℕ) : Access :=
  ⟨.range interval.owner interval.collection order order 1, .read⟩

theorem claimInstance_ok (h : claimInstance site element interval s order = .ok t) :
    interval.holds order = true ∧ s.holdsEntry interval order = true ∧
      (s.logged [probing interval order]).chargeWrite site element order interval.cap = .ok t := by
  unfold claimInstance at h
  split at h
  · cases h
  rename_i hholds
  dsimp only at h
  split at h
  · rename_i hheld
    exact ⟨by simpa using hholds, hheld, h⟩
  · cases h

theorem refuseHeld_ok (h : refuseHeld interval s order = .ok t) :
    s.holdsEntry interval order = false ∧ t = s.logged [probing interval order] := by
  unfold refuseHeld at h
  dsimp only at h
  split at h
  · cases h
  · rename_i hheld
    cases h
    exact ⟨Bool.eq_false_iff.mpr hheld, rfl⟩

theorem logged_billed (accesses : List Access) (cap : ℕ) (hrep : s.repAt site element = .ok rep) :
    Billed site element s (s.logged accesses) rep cap ∅ ∧ s.Still (s.logged accesses) :=
  ⟨Looks.billed ⟨⟨rfl, rfl⟩, rfl⟩ hrep, ⟨rfl, rfl, rfl, rfl, rfl, rfl, rfl⟩, rfl, rfl⟩

variable {orders : List ℕ}

theorem foldlM_billed {judge : Session → ℕ → Except SessionTrap Session} (P : Session → ℕ → Prop)
    (bill : ℕ → Finset ℕ) (hrep : s.repAt site element = .ok rep)
    (h : orders.foldlM judge s = .ok t)
    (hjudge : ∀ s t order, s.repAt site element = .ok rep → judge s order = .ok t →
      (Billed site element s t rep cap (bill order) ∧ s.Still t) ∧ P s order)
    (hback : ∀ s t order, s.Quiet t → P t order → P s order) :
    Billed site element s t rep cap (orders.toFinset.biUnion bill) ∧ s.Still t ∧
      ∀ order ∈ orders, P s order := by
  induction orders generalizing s with
  | nil =>
    cases h
    exact ⟨(Looks.refl _).billed hrep, .refl _, by simp⟩
  | cons order rest ih =>
    rw [foldlM_cons] at h
    obtain ⟨u, hfirst, h⟩ := bind_ok.mp h
    obtain ⟨⟨hbilled, hstill⟩, hp⟩ := hjudge _ _ _ hrep hfirst
    obtain ⟨hrest, hrests, hps⟩ := ih hbilled.named h
    rw [toFinset_cons, Finset.biUnion_insert]
    refine ⟨hbilled.trans hrest, hstill.trans hrests, fun o ho => ?_⟩
    rcases mem_cons.mp ho with rfl | ho
    · exact hp
    · exact hback _ _ _ hbilled.quiet (hps o ho)

theorem foldl_edited (interval : Interval) (value : Option Bytes) :
    ∀ (orders : List ℕ) (s : Session),
    (orders.foldl (fun s order => s.edited interval order value) s).books =
        s.books.setEntries interval.owner interval.collection orders value ∧
      s.Stands (orders.foldl (fun s order => s.edited interval order value) s) ∧
      (orders.foldl (fun s order => s.edited interval order value) s).ranges = s.ranges
  | [], s => ⟨rfl, .refl s, rfl⟩
  | order :: rest, s => by
    obtain ⟨hbooks, hstands, hranges⟩ :=
      foldl_edited interval value rest (s.edited interval order value)
    refine ⟨hbooks.trans ?_, (edited_stands s interval order value).trans hstands,
      hranges.trans ?_⟩ <;>
      cases value <;> rfl

theorem instances_of_acting {op : Op} {resource : ResourceAddr}
    (hop : op = .takeInstances ∨ op = .fileInstances)
    (hinterval : s.actingInterval site element op = .ok interval)
    (hvalue : s.valueOf site element = .ok resource) : ∃ rep moves, s.repAt site element = .ok rep ∧
      Deed.Holds s.setting rep (.instances interval moves) (some resource) := by
  obtain ⟨held, hacting, hsome⟩ := actingInterval_ok hinterval
  obtain ⟨rep, hrep, hholds⟩ := holds_of_acting hacting hvalue
  obtain ⟨-, -, -, -, hgrants⟩ := acting_ok hacting
  obtain ⟨interval', moves, rfl⟩ : ∃ interval' moves, held = .instances interval' moves := by
    rcases hop with rfl | rfl <;> cases held <;> first | exact ⟨_, _, rfl⟩ | cases hgrants
  obtain rfl := some.inj hsome
  exact ⟨rep, moves, hrep, hholds⟩

theorem claims_ok (hrep : s.repAt site element = .ok rep)
    (h : ids.foldlM (claimInstance site element interval) s = .ok t) :
    Billed site element s t rep interval.cap ids.toFinset ∧ s.Still t ∧
      ∀ order ∈ ids, interval.holds order = true ∧ s.holdsEntry interval order = true := by
  rw [← Finset.biUnion_singleton_eq_self (s := ids.toFinset)]
  refine foldlM_billed (fun s order => interval.holds order = true ∧
    s.holdsEntry interval order = true)
    singleton hrep h (fun s t order hrep h => ?_)
    fun _ _ _ hq hp => ⟨hp.1, (holdsEntry_of_quiet hq _ _).symm.trans hp.2⟩
  obtain ⟨hholds, hheld, hcharge⟩ := claimInstance_ok h
  obtain ⟨hlogged, hstill⟩ := logged_billed [probing interval order] interval.cap hrep
  have hbilled := hlogged.trans (chargeWrite_billed hlogged.named hcharge)
  rw [Finset.empty_union] at hbilled
  exact ⟨⟨hbilled, hstill.trans (chargeWrite_still hcharge).1⟩, hholds, hheld⟩

theorem filing_ok (hrep : s.repAt site element = .ok rep)
    (hcharges : orders.foldlM (fun s order => s.chargeWrite site element order interval.cap)
      s = .ok u)
    (hprobes : orders.foldlM (refuseHeld interval) u = .ok t) :
    Billed site element s t rep interval.cap orders.toFinset ∧ s.Still t ∧
      ∀ order ∈ orders, s.holdsEntry interval order = false := by
  obtain ⟨hcharged, hstill, -⟩ := foldlM_billed (fun _ _ => True) singleton hrep hcharges
    (fun _ _ _ hrep h => ⟨⟨chargeWrite_billed hrep h, (chargeWrite_still h).1⟩, trivial⟩)
    fun _ _ _ _ _ => trivial
  obtain ⟨hprobed, hstill', hfree⟩ := foldlM_billed
    (fun s order => s.holdsEntry interval order = false) (fun _ => ∅) hcharged.named hprobes
    (fun s t order hrep h => by
      obtain ⟨hfree, rfl⟩ := refuseHeld_ok h
      exact ⟨logged_billed _ interval.cap hrep, hfree⟩)
    (fun _ _ _ hq hp => (holdsEntry_of_quiet hq _ _).symm.trans hp)
  have hbilled := hcharged.trans hprobed
  have hnone : orders.toFinset.biUnion (fun _ => (∅ : Finset ℕ)) = ∅ :=
    Finset.subset_empty.mp (Finset.biUnion_subset.mpr fun _ _ => Finset.Subset.refl _)
  rw [Finset.biUnion_singleton_eq_self, hnone, Finset.union_empty] at hbilled
  exact ⟨hbilled, hstill.trans hstill', fun order horder =>
    (holdsEntry_of_quiet hcharged.quiet _ _).symm.trans (hfree order horder)⟩

theorem edits_follows (value : Option Bytes) (hfollows : Follows s u)
    (h : ∀ order ∈ orders, s.Admits ⟨.entry interval.owner interval.collection order, .write⟩) :
    Follows u (orders.foldl (fun s order => s.edited interval order value) u) :=
  foldl_follows fun _ order horder hv =>
    edited_follows value ((h order horder).of_follows (hfollows.trans hv))

variable {held : Capability}

theorem claims_follow (hrep : s.repAt site element = .ok rep)
    (htable : s.table[rep]? = some held) (hof : held.interval = some interval)
    (hroomy : s.Roomy rep interval.cap)
    (h : ids.foldlM (claimInstance site element interval) s = .ok t) : Follows s t := by
  refine (foldlM_follows (P := fun s => s.repAt site element = .ok rep ∧ s.table[rep]? = some held ∧
    s.Roomy rep interval.cap) h ⟨hrep, htable, hroomy⟩ ?_).1
  rintro s t order - ⟨hrep, htable, hroomy⟩ h
  obtain ⟨hholds, -, hcharge⟩ := claimInstance_ok h
  have hlogged := (logged_billed [probing interval order] interval.cap hrep).1
  have hcap : 1 ≤ interval.cap := cap_of_charge hlogged.named hroomy hcharge
  have hprobe := logged_follows (forall_mem_singleton.mpr
    (admits_probe htable hof (holds_iff.mp hholds) hcap))
  have hfollows := hprobe.trans (chargeWrite_still hcharge).2
  exact ⟨hfollows, (chargeWrite_billed hlogged.named hcharge).named, hfollows.table ▸ htable,
    fun _ => hcap⟩

theorem rangeTake_leaves (h : s.rangeTake site element ids = .ok (t, rep)) :
    s.Leaves (.rangeTake site element ids) (.number rep) t := by
  obtain ⟨interval, hinterval, resource, hvalue, h⟩ := binds_ok.mp h
  obtain ⟨ids', hids, u, hclaims, h⟩ := binds_ok.mp h
  cases h
  obtain ⟨rep', moves, hrep, hholds⟩ := instances_of_acting (.inl rfl) hinterval hvalue
  obtain ⟨hbilled, hstill, hclaimed⟩ := claims_ok hrep hclaims
  obtain ⟨hbooks, hstands, hranges⟩ := foldl_edited interval none (ascending ids'.toFinset) u
  have hleft := hstill.toStands.trans hstands
  rw [hbilled.quiet.1] at hbooks
  refine ⟨⟨.takeInstances interval ids'.toFinset resource, ⟨rep', moves, hholds, ?_⟩, trivial, ?_,
      hleft.setting, rep', moves, hholds.1, ?_⟩,
    ⟨hleft.issuance, hleft.reach, hleft.sites, hleft.entries, nofun, fun _ => hleft.queue, ?_,
      siteHeld_of rfl (actingInterval_reach hinterval), trivial⟩, fun _ m hsound => ?_⟩
  · intro id hid
    exact hclaimed id (mem_toFinset.mp hid)
  · exact congrArg (fun b : Books => b.push (.instances ids'.toFinset) resource none) hbooks
  · have hwritten := congrArg Ranges.written hranges
    exact charge_of_written hbilled.charge hwritten
  · exact hleft.buckets ▸ Buckets.opened_moves _ (.instances ids'.toFinset) resource none
  · have hfollows := claims_follow hrep hholds.1 rfl (hsound.roomy hholds.1 rfl) hclaims
    have hcleared := edits_follows none hfollows fun order horder =>
      admits_entry (.inr (.inr rfl)) hinterval
        (holds_iff.mp (hclaimed order (mem_toFinset.mp (mem_ascending.mp horder))).1)
    exact ((hfollows.trans hcleared).trans (invalidate_follows ..)).trans
      (.same rfl rfl rfl rfl rfl)

theorem filing_follows (hrep : s.repAt site element = .ok rep)
    (htable : s.table[rep]? = some held) (hof : held.interval = some interval)
    (hroomy : s.Roomy rep interval.cap)
    (hinside : ∀ order ∈ orders, interval.lo ≤ order ∧ order ≤ interval.hi)
    (hcharges : orders.foldlM (fun s order => s.chargeWrite site element order interval.cap)
      s = .ok u)
    (hprobes : orders.foldlM (refuseHeld interval) u = .ok t) : Follows s t := by
  -- where there is an id to file, its charge was within the cap
  have hcap : ∀ order ∈ orders, 1 ≤ interval.cap := by
    intro order horder
    cases orders with
    | nil => cases horder
    | cons first rest =>
      rw [foldlM_cons] at hcharges
      obtain ⟨w, hfirst, -⟩ := bind_ok.mp hcharges
      exact cap_of_charge hrep hroomy hfirst
  obtain ⟨hcharged, -⟩ := foldlM_follows (P := fun _ => True) hcharges trivial
    fun _ _ _ _ _ h => ⟨(chargeWrite_still h).2, trivial⟩
  obtain ⟨hprobed, -⟩ := foldlM_follows (P := fun u => u.table[rep]? = some held) hprobes
    (hcharged.table ▸ htable) fun u w order horder htable h => by
      obtain ⟨-, rfl⟩ := refuseHeld_ok h
      exact ⟨logged_follows (forall_mem_singleton.mpr
        (admits_probe htable hof (hinside order horder) (hcap order horder))), htable⟩
  exact hcharged.trans hprobed

theorem rangePut_leaves (h : s.rangePut site element funds value = .ok t) :
    s.Leaves (.rangePut site element funds value) a t := by
  obtain ⟨interval, hinterval, h⟩ := bind_ok.mp h
  obtain ⟨hlen, h⟩ := seq_ok.mp h
  obtain ⟨hcredit, h⟩ := seq_ok.mp h
  obtain ⟨resource, hvalue, hcarried⟩ := judgeCredit_ok hcredit
  obtain ⟨held, hheld, h⟩ := bind_ok.mp h
  cases held with
  | amount n => cases h
  | instances ids =>
    dsimp only at h
    split at h
    · cases h
    rename_i hall
    obtain ⟨u, hcharges, v, hprobes, h⟩ := binds_ok.mp h
    obtain ⟨⟨b, taken⟩, htake, h⟩ := bind_ok.mp h
    cases h
    have hinside : ∀ order ∈ ascending ids, interval.holds order = true :=
      all_eq_true.mp (by simpa using hall)
    obtain ⟨rep', moves, hrep, hholds⟩ := instances_of_acting (.inr rfl) hinterval hvalue
    obtain ⟨hbilled, hstill, hfree⟩ := filing_ok hrep hcharges hprobes
    obtain ⟨hbooks, hstands, hranges⟩ := foldl_edited interval (some value) (ascending ids) v
    have hleft := hstill.toStands.trans hstands
    rw [hbilled.quiet.1] at hbooks
    rw [toFinset_ascending] at hbilled
    have hmoves : Buckets.Moves [funds] false _ a b := Buckets.take_moves htake
    obtain ⟨-, rfl⟩ := Buckets.take_ok htake
    refine ⟨⟨.fileInstances interval ids funds value, ⟨rep', moves, resource, hholds,
        ⟨(Buckets.get_ok hheld).1, Buckets.resourceOf_ok hcarried⟩, ?_⟩, trivial, ?_, hleft.setting,
        rep', moves, hholds.1, ?_, checkValueLen_ok hlen⟩,
      ⟨hleft.issuance, hleft.reach, hleft.sites, hleft.entries, nofun, fun _ => hleft.queue, ?_,
        siteHeld_of rfl (actingInterval_reach hinterval), trivial⟩, fun _ m hsound => ?_⟩
    · intro id hid
      have hmem : id ∈ ascending ids := mem_ascending.mpr hid
      exact ⟨hinside id hmem, hfree id hmem⟩
    · exact congrArg (fun b : Books => b.close funds) hbooks
    · have hwritten := congrArg Ranges.written hranges
      exact charge_of_written hbilled.charge hwritten
    · exact hleft.buckets ▸ hmoves
    · have hwithin : ∀ order ∈ ascending ids, interval.lo ≤ order ∧ order ≤ interval.hi :=
        fun order horder => holds_iff.mp (hinside order horder)
      have hfollows :=
        filing_follows hrep hholds.1 rfl (hsound.roomy hholds.1 rfl) hwithin hcharges hprobes
      have hset := edits_follows (some value) hfollows fun order horder =>
        admits_entry (.inr (.inl rfl)) hinterval (hwithin order horder)
      exact ((hfollows.trans hset).trans (invalidate_follows ..)).trans (.same rfl rfl rfl rfl rfl)

variable {target : EffectTarget} {found : Bool}

theorem occupied_ok {o o' : OverlayStore} (h : occupied o target = .ok (o', found)) :
    o' = { o with log := o.log ++ occupiedAccesses target } := by
  cases target with
  | point key =>
    unfold occupied at h
    dsimp only at h
    split at h
    · obtain ⟨committed, -, total, -, h⟩ := binds_ok.mp h
      cases h
      rfl
    · cases h
      rfl
  | entry owner collection order =>
    cases h
    rfl
  | range owner collection lo hi cap =>
    unfold occupied at h
    dsimp only at h
    split at h
    · rename_i hcap
      cases h
      simp [occupiedAccesses, hcap]
    · rename_i hcap
      cases h
      simp [occupiedAccesses, hcap, OverlayStore.entriesInRange, OverlayStore.record]

theorem declaredPresent_leaves
    (h : s.declaredPresent target = .ok (t, found)) : s.Leaves (.declaredPresent target) a t := by
  obtain ⟨⟨store, found'⟩, hoccupied, h⟩ := bind_ok.mp h
  cases h
  obtain rfl := occupied_ok (mapError_ok.mp hoccupied)
  exact logged_leaves trivial ⟨rfl, rfl⟩ (noSite rfl) trivial nofun

variable {α : Type}

theorem of_map_answer {form : α → OpAnswer} {x : Except SessionTrap (Session × α)}
    (h : x.map (answer form) = .ok (t, a)) : ∃ found, x = .ok (t, found) := by
  obtain ⟨⟨u, found⟩, hx, hu⟩ := map_ok.mp h
  cases hu
  exact ⟨found, hx⟩

theorem of_map_done {x : Except SessionTrap Session} (h : x.map done = .ok (t, a)) : x = .ok t := by
  obtain ⟨u, hx, hu⟩ := map_ok.mp h
  cases hu
  exact hx

theorem of_map_numbered {x : Except SessionTrap (Session × ℕ)}
    (h : x.map (answer .number) = .ok (t, a)) : ∃ rep, x = .ok (t, rep) ∧ a = .number rep := by
  obtain ⟨⟨u, rep⟩, hx, hu⟩ := map_ok.mp h
  cases hu
  exact ⟨rep, hx, rfl⟩

theorem of_map_asked {form : α → OpAnswer} {x : Except SessionTrap α}
    (h : x.map (fun n => (s, form n)) = .ok (t, a)) : t = s ∧ ∃ n, x = .ok n := by
  obtain ⟨n, hx, hu⟩ := map_ok.mp h
  cases hu
  exact ⟨rfl, n, hx⟩

theorem step_leaves (h : s.step op = .ok (t, a)) (hlends : op.lends = false) : s.Leaves op a t := by
  cases op with
  | siteLen rep =>
    obtain ⟨rfl, n, hn⟩ := of_map_asked h
    obtain ⟨entries, hentries, -⟩ := bind_ok.mp hn
    exact told_leaves trivial (Buckets.still_moves _ _)
      (siteHeld_of rfl (site_reach hentries)) trivial
  | siteDeclared rep index =>
    obtain ⟨rfl, b, hb⟩ := of_map_asked h
    obtain ⟨found, hfound, -⟩ := bind_ok.mp hb
    exact told_leaves trivial (Buckets.still_moves _ _)
      (siteHeld_of rfl (entry_reach hfound)) trivial
  | cellGet site element => exact cellGet_leaves (of_map_answer h).choose_spec
  | writeCellSet site element value => exact writeCellSet_leaves (of_map_done h)
  | writeCellClear site element => exact writeCellClear_leaves (of_map_done h)
  | sealCell site element => exact sealCell_leaves (of_map_done h)
  | openSeal site element => exact openSeal_leaves (of_map_answer h).choose_spec
  | amountCellBalance site element => exact amountCellBalance_leaves (of_map_answer h).choose_spec
  | cellTake site element amount =>
    obtain ⟨rep, hstep, rfl⟩ := of_map_numbered h
    exact cellTake_leaves hstep
  | cellPut site element funds => exact cellPut_leaves (of_map_done h)
  | reserveAmount site element =>
    obtain ⟨rfl, n, hn⟩ := of_map_asked h
    obtain ⟨key, hacting, -⟩ := reserved_ok hn
    exact told_leaves trivial (Buckets.still_moves _ _)
      (siteHeld_of rfl (acting_reach hacting)) trivial
  | reserveTake site element =>
    obtain ⟨rep, hstep, rfl⟩ := of_map_numbered h
    exact reserveTake_leaves hstep
  | bucketAmount rep =>
    obtain ⟨rfl, n, hn⟩ := of_map_asked h
    refine told_leaves trivial ⟨?_, t.buckets, .refl _ _, rfl⟩ (noSite rfl) trivial
    exact fun other hother => mem_singleton.mp hother ▸ Buckets.amount_reach hn
  | bucketTake rep amount =>
    obtain ⟨off, hstep, rfl⟩ := of_map_numbered h
    exact bucketTake_leaves hstep
  | bucketSplit rep num den =>
    obtain ⟨off, hstep, rfl⟩ := of_map_numbered h
    exact bucketSplit_leaves hstep
  | bucketPut rep other => exact bucketPut_leaves (of_map_done h)
  | dropBucket rep => exact dropBucket_leaves (of_map_done h)
  | mint grant amount =>
    obtain ⟨rep, hstep, rfl⟩ := of_map_numbered h
    exact mint_leaves hstep
  | mintInstances grant ids =>
    obtain ⟨rep, hstep, rfl⟩ := of_map_numbered h
    exact mintInstances_leaves hstep
  | burn funds => exact burn_leaves (of_map_done h)
  | rangeCount site element => exact rangeCount_leaves (of_map_answer h).choose_spec
  | rangeCovered site element => exact rangeCovered_leaves (of_map_answer h).choose_spec
  | rangeOrder site element index => exact rangeOrder_leaves (of_map_answer h).choose_spec
  | rangeEntry site element index => exact rangeEntry_leaves (of_map_answer h).choose_spec
  | rangeSet site element index value => exact (rangeSet_edits (of_map_done h)).leaves rfl
  | rangeInsert site element order value => exact (rangeInsert_edits (of_map_done h)).leaves rfl
  | rangeRemove site element index => exact (rangeRemove_edits (of_map_done h)).leaves rfl
  | rangeTake site element ids =>
    obtain ⟨rep, hstep, rfl⟩ := of_map_numbered h
    exact rangeTake_leaves hstep
  | rangePut site element funds value => exact rangePut_leaves (of_map_done h)
  | emit eventType payload => exact emit_leaves (of_map_done h)
  | escrowOut node output funds departure => exact escrowOut_leaves (of_map_answer h).choose_spec
  | escrowIn arrival =>
    obtain ⟨rep, hstep, rfl⟩ := of_map_numbered h
    exact escrowIn_leaves hstep
  | declaredCell key =>
    cases h
    exact logged_leaves trivial ⟨rfl, rfl⟩ (noSite rfl) trivial nofun
  | declaredPresent target => exact declaredPresent_leaves (of_map_answer h).choose_spec
  | _ => cases hlends

theorem step_makes (h : s.step op = .ok (t, a)) : s.Makes op t := by
  cases hlends : op.lends with
  | false => exact (step_leaves h hlends).makes
  | true =>
    cases SessionOp.lends_of hlends <;> cases h <;> exact Looks.makes ⟨⟨rfl, rfl⟩, rfl⟩ trivial

theorem step_does (h : s.step op = .ok (t, a)) : s.Does op t :=
  (step_makes h).does

theorem step_charges (hstep : s.step op = .ok (t, a)) : t.ranges.written = s.ranges.written ∨
    ∃ rep held interval orders, s.table[rep]? = some held ∧ held.interval = some interval ∧
      Charge s t rep interval.cap orders ∧ ∀ order ∈ orders, s.Picks interval order := by
  obtain ⟨deed, hallowed, -, -, -, hcharges⟩ := step_makes hstep
  cases deed with
  | setEntry key value =>
    obtain ⟨rep, interval, hrep, -, -, hcharge, hpicks, -⟩ := hcharges
    refine .inr ⟨rep, _, interval, _, hrep, rfl, hcharge, fun order horder => ?_⟩
    rw [Finset.mem_singleton.mp horder]
    exact hpicks
  | takeInstances interval ids resource =>
    obtain ⟨rep, moves, hrep, hcharge⟩ := hcharges
    obtain ⟨-, -, -, hheld⟩ := hallowed
    exact .inr ⟨rep, _, interval, ids, hrep, rfl, hcharge, fun id hid => .inl (hheld id hid).1⟩
  | fileInstances interval ids funds value =>
    obtain ⟨rep, moves, hrep, hcharge, -⟩ := hcharges
    obtain ⟨-, -, -, -, -, hfree⟩ := hallowed
    exact .inr ⟨rep, _, interval, ids, hrep, rfl, hcharge, fun id hid => .inl (hfree id hid).1⟩
  | setCell key value => exact .inl hcharges.1
  | _ => exact .inl hcharges

theorem EachWritten.step {P : Interval → Finset ℕ → Prop} (h : s.EachWritten P)
    (hstep : s.step op = .ok (t, a))
    (hP : ∀ {rep interval orders}, Charge s t rep interval.cap orders →
      (∀ order ∈ orders, s.Picks interval order) →
      P interval (s.ranges.written rep) → P interval (t.ranges.written rep)) :
    t.EachWritten P := by
  intro rep held interval hrep hof
  have htable : t.table = s.table := congrArg Setting.table (step_does hstep).choose_spec.2.2.2
  rw [htable] at hrep
  have hs := h rep held interval hrep hof
  rcases step_charges hstep with
    hwritten | ⟨rep', held', interval', orders, hrep', hof', hcharge, hpicks⟩
  · rw [hwritten]
    exact hs
  by_cases hsame : rep = rep'
  · subst hsame
    obtain rfl : held = held' := some.inj (hrep.symm.trans hrep')
    obtain rfl : interval = interval' := some.inj (hof.symm.trans hof')
    exact hP hcharge hpicks hs
  · rw [hcharge.only hsame]
    exact hs

theorem WithinCaps.step (h : s.WithinCaps) (hstep : s.step op = .ok (t, a)) : t.WithinCaps :=
  EachWritten.step h hstep fun hcharge _ => hcharge.within

theorem Sound.bounds_step {m : MemoryStore} (h : s.Sound m) (hstep : s.step op = .ok (t, a)) :
    t.WithinBounds := by
  refine EachWritten.step h.inside hstep fun hcharge hpicks hinside order horder => ?_
  rw [hcharge.joined] at horder
  rcases Finset.mem_union.mp horder with hmem | hmem
  · exact hinside order hmem
  · exact (hpicks order hmem).holds h

variable {ops : List SessionOp}

theorem run_induction {P : Session → Prop}
    (hstep : ∀ s t op a, op ∈ ops → s.step op = .ok (t, a) → P s → P t)
    (h : s.run ops = .ok t) (hs : P s) : P t := by
  induction ops generalizing s with
  | nil =>
    cases h
    exact hs
  | cons op rest ih =>
    unfold run at h
    rw [foldlM_cons] at h
    obtain ⟨u, hu, h⟩ := bind_ok.mp h
    obtain ⟨⟨u', a⟩, hfirst, rfl⟩ := map_ok.mp hu
    exact ih (fun s t op a hop => hstep s t op a (mem_cons_of_mem _ hop)) h
      (hstep s u' op a (mem_cons_self ..) hfirst hs)

theorem run_setting (h : s.run ops = .ok t) : t.setting = s.setting :=
  run_induction (P := fun u => u.setting = s.setting)
    (fun _ _ _ _ _ hstep hs => (step_does hstep).choose_spec.2.2.2.trans hs) h rfl

end Session

end HyperscaleVm.Kernel

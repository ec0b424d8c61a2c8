import HyperscaleVm.Kernel.Session.Frames

/-!
# Pages and the store they were read from (`session/ranges.rs`)

A page is kept by the site it was read through, and a write drops the pages of its
collection that the executing frame resolves.
-/

namespace HyperscaleVm.Kernel
open List Library

section Collection

variable {β : Type} {entries entries' : Std.ExtTreeMap EntryKey β} {owner : Address}
  {collection lo hi : ℕ}

theorem scan_congr (h : ∀ order, entries[(⟨owner, collection, order⟩ : EntryKey)]? =
    entries'[(⟨owner, collection, order⟩ : EntryKey)]?) :
    scan entries owner collection lo hi = scan entries' owner collection lo hi := by
  have hmem : ∀ p, p ∈ scan entries owner collection lo hi ↔
      p ∈ scan entries' owner collection lo hi := by
    rintro ⟨order, value⟩
    rw [mem_scan, mem_scan, h]
  have hascends : ∀ map : Std.ExtTreeMap EntryKey β,
      (scan map owner collection lo hi).Pairwise fun a b => a.1 < b.1 := fun _ => ascends_scan
  have hnodup : ∀ map : Std.ExtTreeMap EntryKey β, (scan map owner collection lo hi).Nodup :=
    fun map => (hascends map).imp fun hlt heq => absurd (congrArg Prod.fst heq) hlt.ne
  have hperm := (perm_ext_iff_of_nodup (hnodup entries) (hnodup entries')).mpr hmem
  refine List.Perm.eq_of_pairwise ?_ (hascends entries) (hascends entries') hperm
  intro a b _ _ hab hba
  exact absurd hba (lt_asymm hab)

variable {run : List (ℕ × β)} {cap : ℕ}

theorem Ascends.beyond (h : Ascends run) {last : ℕ} {value : β}
    (hlast : (run.take cap).getLast? = some (last, value)) :
    (∃ p ∈ run, last < p.1) ↔ cap < run.length := by
  have hparts : (run.take cap ++ run.drop cap).Pairwise fun a b => a.1 < b.1 := by
    rw [take_append_drop]
    exact h
  obtain ⟨hpage, -, hacross⟩ := pairwise_append.mp hparts
  obtain ⟨front, hfront⟩ := getLast?_eq_some_iff.mp hlast
  have hmem : (last, value) ∈ run.take cap := mem_of_getLast? hlast
  constructor
  · rintro ⟨p, hp, hlt⟩
    by_contra hlong
    rw [take_of_length_le (Nat.le_of_not_lt hlong)] at hfront hpage
    rw [hfront] at hp hpage
    rcases mem_append.mp hp with hp | hp
    · exact absurd ((pairwise_append.mp hpage).2.2 p hp _ (mem_singleton_self _))
        (lt_asymm hlt)
    · rw [mem_singleton.mp hp] at hlt
      exact absurd hlt (lt_irrefl _)
  · intro hlong
    have hnext : run.get ⟨cap, hlong⟩ ∈ run.drop cap := by
      rw [drop_eq_getElem_cons hlong]
      exact mem_cons_self
    exact ⟨_, mem_of_mem_drop hnext, hacross _ hmem _ hnext⟩

theorem Ascends.page_holds (h : Ascends run) :
    (∀ p ∈ run, p ∈ run.take cap) ↔ run.length ≤ cap := by
  constructor
  · intro hall
    by_contra hlong
    have hlong := Nat.lt_of_not_le hlong
    have hparts : (run.take cap ++ run.drop cap).Pairwise fun a b => a.1 < b.1 := by
      rw [take_append_drop]
      exact h
    have hnext : run.get ⟨cap, hlong⟩ ∈ run.drop cap := by
      rw [drop_eq_getElem_cons hlong]
      exact mem_cons_self
    have hpaged := hall _ (mem_of_mem_drop hnext)
    exact absurd ((pairwise_append.mp hparts).2.2 _ hpaged _ hnext) (lt_irrefl _)
  · intro hshort p hp
    rw [take_of_length_le hshort]
    exact hp

end Collection

namespace Session

variable {s t u : Session} {site element : ℕ}

def shown (s : Session) (interval : Interval) : List (ℕ × Bytes) :=
  s.store.mergedEntries interval.owner interval.collection interval.lo interval.hi interval.cap

def Covers (s : Session) (interval : Interval) : Prop :=
  interval.cap ≠ 0 ∧ ∀ order value, interval.lo ≤ order → order ≤ interval.hi →
    s.store.entryValue ⟨interval.owner, interval.collection, order⟩ = some value →
    (order, value) ∈ s.shown interval

def declaredAt (s : Session) (site element : ℕ) : Except SessionTrap Interval :=
  ({ s with reach := .whole } : Session).intervalAt site element

structure SameCollection (s t : Session) (owner : Address) (collection : ℕ) : Prop where
  base : t.store.base = s.store.base
  committed : t.store.committed = s.store.committed
  filed : ∀ order, t.store.active.entries[(⟨owner, collection, order⟩ : EntryKey)]? =
    s.store.active.entries[(⟨owner, collection, order⟩ : EntryKey)]?

variable {interval : Interval}

theorem SameCollection.shown
    (h : SameCollection s t interval.owner interval.collection) :
    t.shown interval = s.shown interval := by
  unfold Session.shown OverlayStore.mergedEntries
  rw [h.base, h.committed, scan_congr h.filed]

variable {order : ℕ}

theorem SameCollection.entryValue {owner : Address} {collection : ℕ}
    (h : SameCollection s t owner collection) :
    t.store.entryValue ⟨owner, collection, order⟩ =
      s.store.entryValue ⟨owner, collection, order⟩ := by
  unfold OverlayStore.entryValue OverlayStore.preActiveEntry
  rw [h.filed, h.base, h.committed]

theorem SameCollection.covers
    (h : SameCollection s t interval.owner interval.collection) :
    t.Covers interval ↔ s.Covers interval := by
  unfold Covers
  rw [h.shown]
  refine and_congr_right fun _ => forall₂_congr fun order value => ?_
  rw [h.entryValue]

theorem sameCollection_of_setting (hsetting : t.setting = s.setting)
    (hfiled : t.store.active.entries = s.store.active.entries) (owner : Address) (collection : ℕ) :
    SameCollection s t owner collection :=
  ⟨congrArg Setting.base hsetting, congrArg Setting.committed hsetting, fun _ => by rw [hfiled]⟩

theorem Stands.sameCollection (h : s.Stands t)
    (hfiled : t.store.active.entries = s.store.active.entries) (owner : Address) (collection : ℕ) :
    SameCollection s t owner collection :=
  sameCollection_of_setting h.setting hfiled owner collection

theorem declaredAt_congr (hsites : t.sites = s.sites) (hentries : t.entries = s.entries)
    (hsetting : t.setting = s.setting) : t.declaredAt site element = s.declaredAt site element := by
  have htable : t.table = s.table := congrArg Setting.table hsetting
  have hjudges : t.judges = s.judges := congrArg Setting.judges hsetting
  unfold declaredAt intervalAt actingInterval acting capabilityAt repAt entry Session.site
  simp only [hsites, hentries, htable, hjudges]

theorem Stands.declaredAt (h : s.Stands t) :
    t.declaredAt site element = s.declaredAt site element :=
  declaredAt_congr h.sites h.entries h.setting

theorem entry_whole (hreach : s.reach.holds site = true) (index : ℕ) :
    ({ s with reach := .whole } : Session).entry site index = s.entry site index := by
  have hsite : ({ s with reach := .whole } : Session).site site = s.site site := by
    unfold Session.site
    simp only [hreach]
    rfl
  unfold entry
  rw [hsite]

theorem declaredAt_of_reach (hreach : s.reach.holds site = true) :
    s.declaredAt site element = s.intervalAt site element := by
  unfold declaredAt intervalAt actingInterval acting capabilityAt repAt
  rw [entry_whole hreach]

theorem declaredAt_of_intervalAt
    (h : s.intervalAt site element = .ok interval) : s.declaredAt site element = .ok interval :=
  (declaredAt_of_reach (actingInterval_reach h)).trans h

theorem declaredAt_bindSite (entries : List (Option ℕ))
    (h : s.declaredAt site element = .ok interval) :
    (s.bindSite entries).1.declaredAt site element = .ok interval := by
  obtain ⟨held, hacting, hinterval⟩ := actingInterval_ok h
  obtain ⟨rep, hrep, htable, hjudges, hgrants⟩ := acting_ok hacting
  have hentry : ({ (s.bindSite entries).1 with reach := .whole } : Session).entry site element =
      .ok (some rep) := by
    have hfound := repAt_ok.mp hrep
    unfold entry at hfound ⊢
    split at hfound
    · cases hfound
    rename_i habsent
    rw [if_neg habsent]
    obtain ⟨named, hnamed, hfound⟩ := bind_ok.mp hfound
    refine bind_ok.mpr ⟨named, ?_, hfound⟩
    unfold Session.site at hnamed ⊢
    dsimp only [bindSite] at hnamed ⊢
    cases hsite : s.sites[site]? with
    | none =>
      rw [hsite] at hnamed
      cases hnamed
    | some place =>
      obtain ⟨start, len⟩ := place
      have hlength := (List.getElem?_eq_some_iff.mp hsite).1
      rw [List.getElem?_append_left hlength, hsite]
      rw [hsite] at hnamed
      simp only [Reach.whole, Reach.holds, Bool.not_true, Bool.false_eq_true, if_false] at hnamed ⊢
      split at hnamed
      · rename_i hwithin
        cases hnamed
        have hwithin' : start + len ≤ (s.entries ++ entries).length := by
          rw [length_append]
          omega
        refine (if_pos hwithin').trans ?_
        rw [drop_append_of_le_length (by omega),
          take_append_of_le_length (by rw [length_drop]; omega)]
      · cases hnamed
  unfold declaredAt intervalAt actingInterval acting capabilityAt
  rw [repAt_ok.mpr hentry]
  have htable' : (s.bindSite entries).1.table[rep]? = some held := htable
  have hjudges' : (s.bindSite entries).1.judges held.owner = true := hjudges
  simp only [bind, Except.bind, htable', hjudges', hgrants, hinterval, Bool.not_true,
    Bool.false_eq_true, if_false, if_true]

/-- A page shows what its interval does now, and what is noted of its coverage is so. -/
def Fresh (s : Session) (site element : ℕ) (page : Scan) : Prop :=
  ∃ interval, s.declaredAt site element = .ok interval ∧ page.entries = s.shown interval ∧
    ∀ covered, page.covered = some covered → (covered = true ↔ s.Covers interval)

def Coherent (s : Session) : Prop :=
  ∀ site element page, s.ranges.scans (site, element) = some page → s.Fresh site element page

variable {page : Scan}

theorem Fresh.of_same (h : s.Fresh site element page)
    (hdeclared : ∀ {interval}, s.declaredAt site element = .ok interval →
      t.declaredAt site element = .ok interval ∧
        SameCollection s t interval.owner interval.collection) : t.Fresh site element page := by
  obtain ⟨interval, hat, hentries, hcovered⟩ := h
  obtain ⟨hat', hsame⟩ := hdeclared hat
  refine ⟨interval, hat', hentries.trans hsame.shown.symm, fun covered hnoted => ?_⟩
  rw [hcovered covered hnoted, hsame.covers]

theorem Fresh.unchanged (h : s.Fresh site element page) (hstands : s.Stands t)
    (hfiled : t.store.active.entries = s.store.active.entries) : t.Fresh site element page :=
  h.of_same fun hat => ⟨hstands.declaredAt.trans hat, hstands.sameCollection hfiled _ _⟩

theorem Coherent.kept (h : s.Coherent) (hsites : t.sites = s.sites)
    (hentries : t.entries = s.entries)
    (hsetting : t.setting = s.setting) (hscans : t.ranges.scans = s.ranges.scans)
    (hfiled : t.store.active.entries = s.store.active.entries) : t.Coherent := by
  intro site element page hheld
  rw [hscans] at hheld
  exact (h _ _ _ hheld).of_same fun hat => ⟨(declaredAt_congr hsites hentries hsetting).trans hat,
    sameCollection_of_setting hsetting hfiled _ _⟩

theorem Coherent.still (h : s.Coherent) (hstill : s.Still t) : t.Coherent :=
  h.kept hstill.sites hstill.entries hstill.setting hstill.scans hstill.filed

section Coverage

variable {m : MemoryStore}

def standing (s : Session) (m : MemoryStore) (interval : Interval) : List (ℕ × Bytes) :=
  Kernel.scan (s.store.collapseOnto m).entries interval.owner interval.collection interval.lo
    interval.hi

variable {interval : Interval}

theorem mem_standing (hbase : s.store.base = m.toBaseline) {order : ℕ} {value : Bytes} :
    (order, value) ∈ s.standing m interval ↔ interval.lo ≤ order ∧ order ≤ interval.hi ∧
      s.store.entryValue ⟨interval.owner, interval.collection, order⟩ = some value := by
  rw [standing, mem_scan, entryValue_eq hbase]

theorem standing_ascends (interval : Interval) : Ascends (s.standing m interval) := ascends_scan

variable (hbase : s.store.base = m.toBaseline)
include hbase

theorem shown_eq (interval : Interval) :
    s.shown interval = (s.standing m interval).take interval.cap := by
  rw [shown, mergedEntries_eq hbase, MemoryStore.entriesInRange]
  split
  · rename_i hinverted
    have hnil : s.standing m interval = [] := by
      rw [eq_nil_iff_forall_not_mem]
      rintro ⟨order, value⟩ hmem
      obtain ⟨hlo, hhi, -⟩ := (mem_standing hbase).mp hmem
      omega
    rw [hnil, take_nil]
  · rfl

theorem covers_iff : s.Covers interval ↔ interval.cap ≠ 0 ∧
    (s.standing m interval).length ≤ interval.cap := by
  rw [← (standing_ascends interval).page_holds, ← shown_eq hbase]
  refine and_congr_right fun _ => ?_
  constructor
  · rintro hall ⟨order, value⟩ hmem
    obtain ⟨hlo, hhi, hvalue⟩ := (mem_standing hbase).mp hmem
    exact hall order value hlo hhi hvalue
  · intro hall order value hlo hhi hvalue
    exact hall (order, value) ((mem_standing hbase).mpr ⟨hlo, hhi, hvalue⟩)

theorem covers_of_resumeAt (hentries : page.entries = s.shown interval)
    (h : resumeAt interval page = none) :
    s.Covers interval := by
  rw [covers_iff hbase]
  rw [shown_eq hbase] at hentries
  unfold resumeAt at h
  split at h
  · rename_i hshort
    rw [hentries, length_take] at hshort
    omega
  · rename_i hfull
    rw [hentries] at h hfull
    cases hlast : ((s.standing m interval).take interval.cap).getLast? with
    | none =>
      rw [hlast] at h
      cases h
    | some found =>
      obtain ⟨last, value⟩ := found
      rw [hlast] at h
      dsimp only at h
      split at h
      · rename_i hhi
        refine ⟨?_, Nat.le_of_not_lt fun hlong => ?_⟩
        · intro hzero
          rw [hzero, take_zero] at hlast
          cases hlast
        · obtain ⟨⟨order, value'⟩, hmem, hlt⟩ :=
            ((standing_ascends interval).beyond hlast).mpr hlong
          have hwithin := ((mem_standing hbase).mp hmem).2.1
          dsimp only at hlt
          omega
      · cases h

theorem covers_iff_probe {resume : ℕ} (hentries : page.entries = s.shown interval)
    (h : resumeAt interval page = some resume) (hcap : interval.cap ≠ 0) :
    (s.store.mergedEntries interval.owner interval.collection resume interval.hi 1).isEmpty = true ↔
      s.Covers interval := by
  rw [covers_iff hbase]
  rw [shown_eq hbase] at hentries
  unfold resumeAt at h
  split at h
  · cases h
  rename_i hfull
  rw [hentries] at h hfull
  cases hlast : ((s.standing m interval).take interval.cap).getLast? with
  | none =>
    rw [getLast?_eq_none_iff.mp hlast, length_nil] at hfull
    omega
  | some found =>
    obtain ⟨last, value⟩ := found
    rw [hlast] at h
    dsimp only at h
    split at h
    · cases h
    cases h
    have hbeyond := (standing_ascends interval).beyond hlast
    let past : Interval := { interval with lo := last + 1, cap := 1 }
    have hprobe : (s.store.mergedEntries interval.owner interval.collection (last + 1) interval.hi
        1) = (s.standing m past).take 1 := shown_eq hbase past
    have hempty : ((s.standing m past).take 1).isEmpty = true ↔ s.standing m past = [] := by
      cases s.standing m past <;> simp
    rw [hprobe, hempty, and_iff_right hcap, ← not_lt, ← hbeyond, eq_nil_iff_forall_not_mem]
    constructor
    · rintro hnone ⟨⟨order, value'⟩, hmem, hlt⟩
      obtain ⟨-, hhi, hvalue⟩ := (mem_standing hbase).mp hmem
      exact hnone (order, value') ((mem_standing hbase).mpr ⟨hlt, hhi, hvalue⟩)
    · rintro hnone ⟨order, value'⟩ hmem
      obtain ⟨hlo, hhi, hvalue⟩ := (mem_standing hbase).mp hmem
      have hfloor : interval.lo ≤ last := by
        have hpaged := mem_of_mem_take (mem_of_getLast? hlast)
        exact ((mem_standing hbase).mp hpaged).1
      have hafter : last + 1 ≤ order := hlo
      exact hnone ⟨(order, value'), (mem_standing hbase).mpr ⟨by omega, hhi, hvalue⟩, hafter⟩

end Coverage

section Reading

variable {m : MemoryStore}

theorem holdScan_coherent (h : s.Coherent) (hpage : s.Fresh site element page) :
    (s.holdScan site element page).Coherent := by
  intro site' element' page' hheld
  have hstands : s.Stands (s.holdScan site element page) := ⟨rfl, rfl, rfl, rfl, rfl, rfl, rfl⟩
  change (if (site', element') = (site, element) then some page
    else s.ranges.scans (site', element')) = some page' at hheld
  split at hheld
  · rename_i hat
    obtain ⟨rfl, rfl⟩ := Prod.mk.inj hat
    obtain rfl := Option.some.inj hheld
    exact hpage.unchanged hstands rfl
  · exact (h _ _ _ hheld).unchanged hstands rfl

theorem scan_coherent (hcoherent : s.Coherent) (h : s.scan site element = .ok (t, page)) :
    t.Coherent ∧ t.Fresh site element page ∧ t.store.active.entries = s.store.active.entries ∧
      ∀ at_, t.ranges.scans at_ = s.ranges.scans at_ ∨
        at_ = (site, element) ∧ s.reach.holds site = true := by
  unfold scan at h
  split at h
  · rename_i held hheld
    cases h
    exact ⟨hcoherent, hcoherent _ _ _ hheld, rfl, fun _ => .inl rfl⟩
  · obtain ⟨interval, hinterval, h⟩ := bind_ok.mp h
    cases h
    let lifted := (s.lift interval.owner interval.collection interval.lo interval.hi interval.cap).1
    have hstands : s.Stands lifted := ⟨rfl, rfl, rfl, rfl, rfl, rfl, rfl⟩
    have hlifted : lifted.Coherent := fun _ _ _ hheld =>
      (hcoherent _ _ _ hheld).unchanged hstands rfl
    have hat : lifted.declaredAt site element = .ok interval :=
      declaredAt_of_intervalAt (s := lifted) hinterval
    have hpage : lifted.Fresh site element ⟨s.shown interval, none⟩ :=
      ⟨interval, hat, rfl, nofun⟩
    refine ⟨holdScan_coherent hlifted hpage, ?_, rfl, fun at_ => ?_⟩
    · exact hpage.unchanged ⟨rfl, rfl, rfl, rfl, rfl, rfl, rfl⟩ rfl
    · by_cases hat' : at_ = (site, element)
      · exact .inr ⟨hat', actingInterval_reach hinterval⟩
      · exact .inl (if_neg hat')

theorem rangeCovered_coherent {covered : Bool} (hbase : s.store.base = m.toBaseline)
    (hcoherent : s.Coherent) (h : s.rangeCovered site element = .ok (t, covered)) :
    t.Coherent ∧ ∃ interval, s.declaredAt site element = .ok interval ∧
      (covered = true ↔ s.Covers interval) := by
  obtain ⟨⟨u, page⟩, hscan, interval, hinterval, h⟩ := binds_ok.mp h
  obtain ⟨hu, ⟨interval', hat, hentries, hnoted⟩, hfiled, -⟩ := scan_coherent hcoherent hscan
  have hstands := (scan_looks hscan).2.1
  obtain rfl : interval' = interval :=
    Except.ok.inj (hat.symm.trans (declaredAt_of_intervalAt hinterval))
  have hbaseU : u.store.base = m.toBaseline := (congrArg Setting.base hstands.setting).trans hbase
  have hat' : s.declaredAt site element = .ok interval' := hstands.declaredAt.symm.trans hat
  have hcovers : u.Covers interval' ↔ s.Covers interval' :=
    (hstands.sameCollection hfiled _ _).covers
  dsimp only at h
  cases hmemo : page.covered with
  | some noted =>
    rw [hmemo] at h
    cases h
    exact ⟨hu, interval', hat', (hnoted covered hmemo).trans hcovers⟩
  | none =>
    rw [hmemo] at h
    -- whatever answered, the answer is noted beside a page as fresh as it was
    have hanswer : ∀ (v : Session) (found : Bool), u.Still v → (found = true ↔ u.Covers interval') →
        (v.holdScan site element { page with covered := found }).Coherent ∧
        ∃ interval, s.declaredAt site element = .ok interval ∧
          (found = true ↔ s.Covers interval) := by
      intro v found hstill hfound
      have hv : v.Coherent := hu.still hstill
      have hsame := hstill.toStands.sameCollection hstill.filed interval'.owner interval'.collection
      have hfresh : v.Fresh site element { page with covered := found } := by
        refine ⟨interval', (hstill.toStands.declaredAt).trans hat,
          hentries.trans hsame.shown.symm, ?_⟩
        intro noted hsome
        obtain rfl := Option.some.inj hsome
        rw [hfound, hsame.covers]
      exact ⟨holdScan_coherent hv hfresh, interval', hat', hfound.trans hcovers⟩
    dsimp only at h
    cases hresume : resumeAt interval' page with
    | none =>
      rw [hresume] at h
      cases h
      exact hanswer u true (.refl u)
        ⟨fun _ => covers_of_resumeAt hbaseU hentries hresume, fun _ => rfl⟩
    | some resume =>
      rw [hresume] at h
      dsimp only at h
      split at h
      · rename_i hzero
        cases h
        exact hanswer u false (.refl u) ⟨nofun, fun hall => absurd hzero hall.1⟩
      · rename_i hcap
        cases h
        exact hanswer _ _ ⟨⟨rfl, rfl, rfl, rfl, rfl, rfl, rfl⟩, rfl, rfl⟩
          (covers_iff_probe hbaseU hentries hresume hcap)

end Reading

variable {s t u v : Session} {site element : ℕ}

def PagesReached (s : Session) (owner : Address) (collection : ℕ) : Prop :=
  ∀ site element page interval, s.ranges.scans (site, element) = some page →
    s.declaredAt site element = .ok interval → interval.owner = owner →
    interval.collection = collection → s.reach.holds site = true

/-- What is written is written where every page of its collection is within reach. -/
def WritesInReach (s : Session) (op : SessionOp) : Prop :=
  ∀ site element attempted written, op.writesAt = some (site, element, attempted) →
    s.actingInterval site element attempted = .ok written →
    s.PagesReached written.owner written.collection

variable {owner : Address} {collection : ℕ}

theorem PagesReached.scanned (h : s.PagesReached owner collection) (hcoherent : s.Coherent)
    (hscan : s.scan site element = .ok (t, page)) : t.PagesReached owner collection := by
  obtain ⟨-, -, -, hscans⟩ := scan_coherent hcoherent hscan
  have hstands := (scan_looks hscan).2.1
  intro site' element' page' interval hheld hat howner hcollection
  rw [hstands.reach]
  rw [hstands.declaredAt] at hat
  rcases hscans (site', element') with hsame | ⟨hown, hreach⟩
  · exact h site' element' page' interval (hsame.symm.trans hheld) hat howner hcollection
  · obtain ⟨rfl, rfl⟩ := Prod.mk.inj hown
    exact hreach

theorem PagesReached.still (h : s.PagesReached owner collection)
    (hstill : s.Still t) : t.PagesReached owner collection := by
  intro site element page interval hheld hat howner hcollection
  rw [hstill.reach]
  exact h site element page interval (hstill.scans ▸ hheld)
    (hstill.declaredAt.symm.trans hat) howner
    hcollection

structure Files (owner : Address) (collection : ℕ) (s t : Session) : Prop extends Stands s t where
  scans : t.ranges.scans = s.ranges.scans
  filed : ∀ owner' collection' order, ¬(owner' = owner ∧ collection' = collection) →
    t.store.active.entries[(⟨owner', collection', order⟩ : EntryKey)]? =
      s.store.active.entries[(⟨owner', collection', order⟩ : EntryKey)]?

theorem Files.refl (owner : Address) (collection : ℕ) (s : Session) : Files owner collection s s :=
  ⟨.refl s, rfl, fun _ _ _ _ => rfl⟩

theorem Files.trans (h : Files owner collection s t)
    (h' : Files owner collection t u) : Files owner collection s u :=
  ⟨h.toStands.trans h'.toStands, h'.scans.trans h.scans, fun owner' collection' order hother =>
    (h'.filed owner' collection' order hother).trans (h.filed owner' collection' order hother)⟩

variable {value : Option Bytes}

theorem insert_elsewhere {entries : Std.ExtTreeMap EntryKey (Option Bytes)} {owner' : Address}
    {collection' order' : ℕ} (hother : ¬(owner' = owner ∧ collection' = collection)) :
    (entries.insert ⟨owner, collection, order⟩ value)[(⟨owner', collection', order'⟩ : EntryKey)]? =
      entries[(⟨owner', collection', order'⟩ : EntryKey)]? := by
  have hne : (⟨owner, collection, order⟩ : EntryKey) ≠ ⟨owner', collection', order'⟩ := by
    intro heq
    injection heq with howner hcollection
    exact hother ⟨howner.symm, hcollection.symm⟩
  rw [Std.ExtTreeMap.getElem?_insert, if_neg]
  exact fun heq => hne (Std.LawfulEqCmp.eq_of_compare heq)

theorem edited_files (s : Session) (interval : Interval) (order : ℕ) (value : Option Bytes) :
    Files interval.owner interval.collection s (s.edited interval order value) := by
  refine ⟨edited_stands s interval order value, ?_, fun _ _ _ hother => ?_⟩
  · cases value <;> rfl
  · cases value <;> exact insert_elsewhere hother

theorem foldl_files (interval : Interval) (value : Option Bytes) (orders : List ℕ) :
    ∀ s, Files interval.owner interval.collection s
      (orders.foldl (fun s order => s.edited interval order value) s) := by
  induction orders with
  | nil => exact .refl _ _
  | cons order orders ih => exact fun s => (edited_files s interval order value).trans (ih _)

theorem invalidate_coherent (hu : u.Coherent)
    (hreached : u.PagesReached owner collection) (hfiles : Files owner collection u v) :
    (v.invalidate owner collection).Coherent := by
  intro site element page hheld
  change (if v.scansCollection owner collection (site, element) then none
    else v.ranges.scans (site, element)) = some page at hheld
  split at hheld
  · cases hheld
  rename_i hkept
  rw [hfiles.scans] at hheld
  have hstands : u.Stands (v.invalidate owner collection) :=
    hfiles.toStands.trans ⟨rfl, rfl, rfl, rfl, rfl, rfl, rfl⟩
  refine (hu _ _ _ hheld).of_same fun {interval} hat => ⟨hstands.declaredAt.trans hat, ?_⟩
  refine ⟨congrArg Setting.base hstands.setting, congrArg Setting.committed hstands.setting,
    fun order => hfiles.filed interval.owner interval.collection order ?_⟩
  rintro ⟨howner, hcollection⟩
  -- a page of the collection written would have been resolved, and dropped
  have hreach := hreached site element page interval hheld hat howner hcollection
  have hresolved : v.intervalAt site element = .ok interval := by
    rw [← declaredAt_of_reach (hfiles.reach ▸ hreach), hfiles.declaredAt]
    exact hat
  apply hkept
  unfold scansCollection
  rw [hresolved]
  simp [howner, hcollection]

variable {index : ℕ} {op : SessionOp} {a : OpAnswer}

theorem EditsEntry.coherent (h : s.EditsEntry site element value t)
    (hop : op.writesAt = some (site, element, .writeEntries)) (hcoherent : s.Coherent)
    (hreach : s.WritesInReach op) : t.Coherent := by
  obtain ⟨interval, u, v, order, hinterval, -, hchosen, hcharge, rfl⟩ := h
  have hreached := hreach _ _ _ _ hop hinterval
  obtain ⟨hu, hreached⟩ : u.Coherent ∧ u.PagesReached interval.owner interval.collection := by
    rcases hchosen with ⟨rfl, -⟩ | ⟨page, found, hscan, -⟩
    · exact ⟨hcoherent, hreached⟩
    · exact ⟨(scan_coherent hcoherent hscan).1, hreached.scanned hcoherent hscan⟩
  have hcharged := (chargeWrite_still hcharge).1
  exact invalidate_coherent (hu.still hcharged) (hreached.still hcharged)
    (edited_files v interval order value)

theorem rangeTake_coherent {ids : List ℕ} {rep : ℕ} (hcoherent : s.Coherent)
    (hreach : s.WritesInReach (.rangeTake site element ids))
    (h : s.rangeTake site element ids = .ok (t, rep)) : t.Coherent := by
  obtain ⟨interval, hinterval, resource, -, h⟩ := binds_ok.mp h
  obtain ⟨distinct, -, u, hclaims, h⟩ := binds_ok.mp h
  cases h
  obtain ⟨rep, held, hrep, -⟩ := actingInterval_table hinterval
  have hclaimed : s.Still u := (claims_ok hrep hclaims).2.1
  have hcleared := foldl_files interval none (ascending distinct.toFinset) u
  have hreached := hreach _ _ _ _ rfl hinterval
  exact (invalidate_coherent (hcoherent.still hclaimed) (hreached.still hclaimed) hcleared).kept
    rfl rfl rfl rfl rfl

theorem rangePut_coherent {funds : ℕ} {value : Bytes} (hcoherent : s.Coherent)
    (hreach : s.WritesInReach (.rangePut site element funds value))
    (h : s.rangePut site element funds value = .ok t) : t.Coherent := by
  obtain ⟨interval, hinterval, h⟩ := bind_ok.mp h
  obtain ⟨-, h⟩ := seq_ok.mp h
  obtain ⟨-, h⟩ := seq_ok.mp h
  obtain ⟨held, -, h⟩ := bind_ok.mp h
  cases held with
  | amount n => cases h
  | instances ids =>
    dsimp only at h
    split at h
    · cases h
    obtain ⟨u, hcharges, v, hprobes, h⟩ := binds_ok.mp h
    obtain ⟨rep, held, hrep, -⟩ := actingInterval_table hinterval
    have hjudged : s.Still v := (filing_ok hrep hcharges hprobes).2.1
    have hset := foldl_files interval (some value) (ascending ids) v
    have hreached := hreach _ _ _ _ rfl hinterval
    have hwritten := invalidate_coherent (hcoherent.still hjudged) (hreached.still hjudged) hset
    obtain ⟨⟨left, taken⟩, -, h⟩ := bind_ok.mp h
    cases h
    exact hwritten.kept rfl rfl rfl rfl rfl

def RunsInReach (s : Session) : List SessionOp → Prop
  | [] => True
  | op :: ops => s.WritesInReach op ∧ ∀ t a, s.step op = .ok (t, a) → t.RunsInReach ops

theorem lends_coherent (hcoherent : s.Coherent)
    (hstep : s.step op = .ok (t, a)) (hlends : op.lends = true) : t.Coherent := by
  cases SessionOp.lends_of hlends <;> cases hstep
  · exact hcoherent.kept rfl rfl rfl rfl rfl
  · exact hcoherent.kept rfl rfl rfl rfl rfl
  · intro site element page hheld
    exact (hcoherent site element page hheld).of_same fun hat =>
      ⟨declaredAt_bindSite _ hat, ⟨rfl, rfl, fun _ => rfl⟩⟩
  · exact hcoherent.kept rfl rfl rfl rfl rfl
  · exact hcoherent.kept rfl rfl rfl rfl rfl

variable {m : MemoryStore}

theorem walks_coherent
    (hbase : s.store.base = m.toBaseline) (hcoherent : s.Coherent) (hreach : s.WritesInReach op)
    (hstep : s.step op = .ok (t, a)) (hwalks : op.walks = true) : t.Coherent := by
  cases op with
  | rangeCount site element =>
    obtain ⟨n, hcount⟩ := of_map_answer hstep
    obtain ⟨⟨u, page⟩, hscan, h⟩ := bind_ok.mp hcount
    cases h
    exact (scan_coherent hcoherent hscan).1
  | rangeOrder site element index =>
    obtain ⟨n, horder⟩ := of_map_answer hstep
    obtain ⟨⟨u, page⟩, hscan, found, -, h⟩ := binds_ok.mp horder
    cases h
    exact (scan_coherent hcoherent hscan).1
  | rangeEntry site element index =>
    obtain ⟨value, hentry⟩ := of_map_answer hstep
    obtain ⟨⟨u, page⟩, hscan, found, -, h⟩ := binds_ok.mp hentry
    cases h
    exact (scan_coherent hcoherent hscan).1
  | rangeCovered site element =>
    exact (rangeCovered_coherent hbase hcoherent (of_map_answer hstep).choose_spec).1
  | rangeSet site element index value =>
    exact (rangeSet_edits (of_map_done hstep)).coherent rfl hcoherent hreach
  | rangeInsert site element order value =>
    exact (rangeInsert_edits (of_map_done hstep)).coherent rfl hcoherent hreach
  | rangeRemove site element index =>
    exact (rangeRemove_edits (of_map_done hstep)).coherent rfl hcoherent hreach
  | rangeTake site element ids =>
    exact rangeTake_coherent hcoherent hreach (of_map_answer hstep).choose_spec
  | rangePut site element funds value =>
    exact rangePut_coherent hcoherent hreach (of_map_done hstep)
  | _ => cases hwalks

theorem Coherent.step (hcoherent : s.Coherent)
    (hbase : s.store.base = m.toBaseline) (hreach : s.WritesInReach op)
    (hstep : s.step op = .ok (t, a)) : t.Coherent := by
  cases hlends : op.lends with
  | true => exact lends_coherent hcoherent hstep hlends
  | false =>
    cases hwalks : op.walks with
    | true => exact walks_coherent hbase hcoherent hreach hstep hwalks
    | false =>
      have hwithin := (step_leaves hstep hlends).within
      obtain ⟨hscans, hfiled⟩ := hwithin.kept hwalks
      have hsetting : t.setting = s.setting := (step_does hstep).choose_spec.2.2.2
      exact hcoherent.kept hwithin.sites hwithin.entries hsetting hscans hfiled

theorem Coherent.run {ops : List SessionOp} (hcoherent : s.Coherent)
    (hbase : s.store.base = m.toBaseline) (hreach : s.RunsInReach ops) (hrun : s.run ops = .ok t) :
    t.Coherent ∧ t.store.base = m.toBaseline := by
  induction ops generalizing s with
  | nil =>
    cases hrun
    exact ⟨hcoherent, hbase⟩
  | cons op ops ih =>
    obtain ⟨hfirst, hrest⟩ := hreach
    rw [Session.run, foldlM_cons] at hrun
    obtain ⟨u, hu, hrun⟩ := bind_ok.mp hrun
    obtain ⟨⟨u', a⟩, hstep, rfl⟩ := map_ok.mp hu
    have hsetting : u'.setting = s.setting := (step_does hstep).choose_spec.2.2.2
    exact ih (hcoherent.step hbase hfirst hstep) ((congrArg Setting.base hsetting).trans hbase)
      (hrest u' a hstep) hrun

variable {store : OverlayStore} {declaration : Effects.Declaration} {tx : TxHash}
  {env : EnvInputs} {codec : Codec} {judges : OwnerSet}

theorem opened_coherent {s : Session}
    (h : materializeWithin store declaration tx env codec judges = .ok s) (g : Given) :
    (s.given g).Coherent := by
  have hopened := (materializeWithin_ok h).opened
  have hnone : (s.given g).ranges.scans = fun _ => none := by
    rw [hopened]
    rfl
  intro site element page hheld
  rw [hnone] at hheld
  cases hheld

theorem scan_shown (hcoherent : s.Coherent) (h : s.scan site element = .ok (t, page)) :
    ∃ interval, s.declaredAt site element = .ok interval ∧ page.entries = s.shown interval := by
  obtain ⟨-, ⟨interval, hat, hentries, -⟩, hfiled, -⟩ := scan_coherent hcoherent h
  have hstands := (scan_looks h).2.1
  have hsame := hstands.sameCollection hfiled interval.owner interval.collection
  exact ⟨interval, hstands.declaredAt.symm.trans hat, hentries.trans hsame.shown⟩

theorem indexed_found {found : ℕ × Bytes}
    (h : indexed page index = .ok found) : page.entries[index]? = some found := by
  unfold indexed at h
  split at h
  · rename_i hfound
    cases h
    exact hfound
  · cases h

/-- In every state of a run whose writes reach the pages of their collections, a walk answers
what a scan of its interval at its cap shows then, and coverage is coverage. -/
theorem walks_answer_what_stands {m : MemoryStore} {s₀ : Session}
    (hbase : store.base = m.toBaseline)
    (hopen : materializeWithin store declaration tx env codec judges = .ok s₀) (g : Given)
    {ops : List SessionOp} {s : Session} (hrun : (s₀.given g).run ops = .ok s)
    (hreach : (s₀.given g).RunsInReach ops) (site element : ℕ) :
    (∀ t n, s.rangeCount site element = .ok (t, n) →
      ∃ interval, s.declaredAt site element = .ok interval ∧ n = (s.shown interval).length) ∧
    (∀ index t order, s.rangeOrder site element index = .ok (t, order) →
      ∃ interval value, s.declaredAt site element = .ok interval ∧
        (s.shown interval)[index]? = some (order, value)) ∧
    (∀ index t value, s.rangeEntry site element index = .ok (t, value) →
      ∃ interval order, s.declaredAt site element = .ok interval ∧
        (s.shown interval)[index]? = some (order, value)) ∧
    ∀ t covered, s.rangeCovered site element = .ok (t, covered) →
      ∃ interval, s.declaredAt site element = .ok interval ∧
        (covered = true ↔ s.Covers interval) := by
  have hbase₀ : (s₀.given g).store.base = m.toBaseline :=
    (materializeWithin_ok hopen).base.trans hbase
  obtain ⟨hcoherent, hbase⟩ := (opened_coherent hopen g).run hbase₀ hreach hrun
  refine ⟨?_, ?_, ?_, ?_⟩
  · intro t n hcount
    obtain ⟨⟨u, page⟩, hscan, h⟩ := bind_ok.mp hcount
    cases h
    obtain ⟨interval, hat, hentries⟩ := scan_shown hcoherent hscan
    exact ⟨interval, hat, congrArg List.length hentries⟩
  · intro index t order horder
    obtain ⟨⟨u, page⟩, hscan, ⟨order', value⟩, hfound, h⟩ := binds_ok.mp horder
    cases h
    obtain ⟨interval, hat, hentries⟩ := scan_shown hcoherent hscan
    exact ⟨interval, value, hat, hentries ▸ indexed_found hfound⟩
  · intro index t value hentry
    obtain ⟨⟨u, page⟩, hscan, ⟨order, value'⟩, hfound, h⟩ := binds_ok.mp hentry
    cases h
    obtain ⟨interval, hat, hentries⟩ := scan_shown hcoherent hscan
    exact ⟨interval, order, hat, hentries ▸ indexed_found hfound⟩
  · intro t covered hcovered
    exact (rangeCovered_coherent hbase hcoherent hcovered).2

end Session

/-- One frame counts an empty interval, and the next files an entry in it through a site of
its own. -/
def filedBeyondReach : List SessionOp :=
  [.enterInvocation keeper 0, .bindSite [some 0], .rangeCount 1 0, .leaveInvocation,
    .enterInvocation ⟨2, .component⟩ 0, .bindSite [some 0], .rangeInsert 2 0 3 [7],
    .leaveInvocation]

/-- The first site's page still counts none, with the entry there. -/
theorem page_outlives_a_write :
    ∃ s t u interval, opensOver .new kept = .ok s ∧ (s.given .plain).run filedBeyondReach = .ok t ∧
      t.declaredAt 1 0 = .ok interval ∧ t.rangeCount 1 0 = .ok (u, 0) ∧
      t.shown interval = [(3, [7])] := by
  obtain ⟨s, t, hopen, hrun, hrest⟩ := @exists_run .new kept
    .plain filedBeyondReach (fun _ t =>
      passes (t.declaredAt 1 0) (fun interval => t.shown interval = [(3, [7])]) &&
        passes (t.rangeCount 1 0) fun p => p.2 = 0) (by decide +kernel)
  obtain ⟨hdeclared, hcount⟩ := Bool.and_eq_true_iff.mp hrest
  obtain ⟨interval, hat, hshown⟩ := passes_iff.mp hdeclared
  obtain ⟨⟨u, n⟩, hcount, hn⟩ := passes_iff.mp hcount
  obtain rfl : n = 0 := of_decide_eq_true hn
  exact ⟨s, t, u, interval, hopen, hrun, hat, hcount, of_decide_eq_true hshown⟩

/-- Through the site that counted it, the write drops the page. -/
theorem own_page_is_counted_again :
    ∃ s t u interval, opensOver .new kept = .ok s ∧
      (s.given .plain).run [.rangeCount 0 0, .rangeInsert 0 0 3 [7]] = .ok t ∧
      t.declaredAt 0 0 = .ok interval ∧ t.rangeCount 0 0 = .ok (u, (t.shown interval).length) := by
  obtain ⟨s, t, hopen, hrun, hrest⟩ := @exists_run .new kept
    .plain [.rangeCount 0 0, .rangeInsert 0 0 3 [7]]
    (fun _ t => passes (t.rangeCount 0 0) fun _ => true) (by decide +kernel)
  obtain ⟨⟨u, n⟩, hcount, -⟩ := passes_iff.mp hrest
  have hlent : (s.given .plain).reach = .whole := by
    rw [(materializeWithin_ok hopen).opened]
    rfl
  have hreach : (s.given .plain).RunsInReach
      [.rangeCount 0 0, .rangeInsert 0 0 3 [7]] := by
    refine ⟨nofun, fun v a hstep => ⟨?_, fun _ _ _ => trivial⟩⟩
    rintro site element attempted written - - site' element' page interval - - - -
    rw [(Session.step_leaves hstep rfl).within.reach, hlent]
    rfl
  obtain ⟨hcounts, -⟩ := Session.walks_answer_what_stands rfl hopen _ hrun hreach 0 0
  obtain ⟨interval, hat, rfl⟩ := hcounts u n hcount
  exact ⟨s, t, u, interval, hopen, hrun, hat, hcount⟩

end HyperscaleVm.Kernel

import HyperscaleVm.Kernel.OverlayRefinement
import HyperscaleVm.Kernel.Session.Reached

/-!
# What an operation leaves in the log
-/

namespace HyperscaleVm.Kernel
open List Option Library

namespace Interval

variable (interval : Interval) (access : Access)

def Reads : Prop :=
  ∃ lo hi cap, access = ⟨.range interval.owner interval.collection lo hi cap, .read⟩ ∧
    cap ≤ interval.cap ∧
      (lo = interval.lo ∧ hi = interval.hi ∨ interval.lo ≤ lo ∧ lo ≤ hi ∧ hi ≤ interval.hi)

def Writes : Prop :=
  ∃ order, access = ⟨.entry interval.owner interval.collection order, .write⟩ ∧
    interval.lo ≤ order ∧ order ≤ interval.hi

end Interval

def Capability.Admits (access : Access) : Capability → Prop
  | .read key | .amountRead key => access = ⟨.point key, .read⟩
  | .write key => access = ⟨.point key, .read⟩ ∨ access = ⟨.point key, .write⟩
  | .amount key _ => access = ⟨.point key, .read⟩ ∨ access = ⟨.point key, .delta⟩
  | .delta key _ => access = ⟨.point key, .delta⟩
  | .reserve _ _ => False
  | .rangeRead interval => interval.Reads access
  | .rangeWrite interval | .instances interval _ => interval.Reads access ∨ interval.Writes access

namespace Session

variable {s t u : Session} {site element : ℕ}

def Admits (s : Session) (access : Access) : Prop :=
  ∃ (rep : ℕ) (held : Capability), s.table[rep]? = some held ∧ held.Admits access

def Names (s : Session) (site element rep : ℕ) : Prop :=
  ∃ start len, s.sites[site]? = some (start, len) ∧ element < len ∧
    s.entries[start + element]? = some (some rep)

variable {rep : ℕ}

theorem Names.unique {rep' : ℕ} (h : s.Names site element rep) (h' : s.Names site element rep') :
    rep = rep' := by
  obtain ⟨start, len, hsite, -, hentry⟩ := h
  obtain ⟨start', len', hsite', -, hentry'⟩ := h'
  obtain ⟨rfl, rfl⟩ := Prod.mk.inj (some.inj (hsite.symm.trans hsite'))
  exact some.inj (some.inj (hentry.symm.trans hentry'))

theorem names_of_repAt (h : s.repAt site element = .ok rep) : s.Names site element rep := by
  have hentry := repAt_ok.mp h
  unfold entry at hentry
  split at hentry
  · cases hentry
  obtain ⟨found, hsite, hfound⟩ := bind_ok.mp hentry
  split at hfound
  · rename_i bound hbound
    cases hfound
    unfold Session.site at hsite
    split at hsite
    · cases hsite
    rename_i start len hat
    split at hsite
    · cases hsite
    split at hsite
    · cases hsite
      rw [getElem?_take] at hbound
      split at hbound
      · rename_i hlt
        rw [getElem?_drop] at hbound
        exact ⟨start, len, hat, hlt, hbound⟩
      · cases hbound
    · cases hsite
  · cases hfound

def PageAt (s : Session) (site element : ℕ) (page : Scan) : Prop :=
  ∃ (rep : ℕ) (held : Capability) (interval : Interval), s.Names site element rep ∧
    s.table[rep]? = some held ∧ held.interval = some interval ∧
    ∀ p ∈ page.entries, interval.lo ≤ p.1 ∧ p.1 ≤ interval.hi

def Paged (s : Session) : Prop :=
  ∀ {site element : ℕ} {page : Scan}, s.ranges.scans (site, element) = some page →
    s.PageAt site element page

variable {page : Scan} {op : Op} {interval : Interval}

theorem PageAt.within (h : s.PageAt site element page)
    (hinterval : s.actingInterval site element op = .ok interval) :
    ∀ p ∈ page.entries, interval.lo ≤ p.1 ∧ p.1 ≤ interval.hi := by
  obtain ⟨rep, held, interval', hnames, htable, hof, hwithin⟩ := h
  obtain ⟨held', hacting, hof'⟩ := actingInterval_ok hinterval
  obtain ⟨rep', hrep, htable', -⟩ := acting_ok hacting
  obtain rfl := hnames.unique (names_of_repAt hrep)
  obtain rfl : held = held' := some.inj (htable.symm.trans htable')
  obtain rfl : interval' = interval := some.inj (hof.symm.trans hof')
  exact hwithin

/-- The log grows by what the table stands for, and the pages by what was read at them. -/
structure Follows (s t : Session) : Prop where
  log : ∀ access ∈ t.store.log, access ∈ s.store.log ∨ s.Admits access
  sites : t.sites = s.sites
  entries : t.entries = s.entries
  table : t.table = s.table
  pages : ∀ {site element : ℕ} {page : Scan}, t.ranges.scans (site, element) = some page →
    s.ranges.scans (site, element) = some page ∨ s.PageAt site element page

namespace Follows

theorem names (h : Follows s t) {rep : ℕ} : t.Names site element rep ↔
    s.Names site element rep := by
  unfold Names
  rw [h.sites, h.entries]

theorem pageAt (h : Follows s t) {page : Scan} :
    t.PageAt site element page ↔ s.PageAt site element page := by
  unfold PageAt
  simp only [h.names, h.table]

theorem paged (h : Follows s t) (hs : s.Paged) : t.Paged :=
  fun hpage => h.pageAt.mpr ((h.pages hpage).elim (fun hold => hs hold) id)

theorem marks {added : List Access} (hlog : t.store.log = s.store.log ++ added)
    (hadded : ∀ access ∈ added, s.Admits access) (hsites : t.sites = s.sites)
    (hentries : t.entries = s.entries) (htable : t.table = s.table)
    (hscans : ∀ {at_ : ℕ × ℕ} {page : Scan}, t.ranges.scans at_ = some page →
      s.ranges.scans at_ = some page) : Follows s t where
  log access haccess := by
    rw [hlog] at haccess
    exact (mem_append.mp haccess).imp id (hadded access)
  sites := hsites
  entries := hentries
  table := htable
  pages hpage := .inl (hscans hpage)

theorem same (hlog : t.store.log = s.store.log) (hsites : t.sites = s.sites)
    (hentries : t.entries = s.entries) (htable : t.table = s.table)
    (hscans : t.ranges.scans = s.ranges.scans) : Follows s t :=
  .marks (hlog.trans (append_nil _).symm) nofun hsites hentries htable
    fun hpage => hscans ▸ hpage

theorem refl (s : Session) : Follows s s := .same rfl rfl rfl rfl rfl

theorem trans (h : Follows s t) (h' : Follows t u) : Follows s u where
  log access haccess := by
    rcases h'.log access haccess with haccess | ⟨rep, held, htable, hadmits⟩
    · exact h.log access haccess
    · rw [h.table] at htable
      exact .inr ⟨rep, held, htable, hadmits⟩
  sites := h'.sites.trans h.sites
  entries := h'.entries.trans h.entries
  table := h'.table.trans h.table
  pages hpage := by
    rcases h'.pages hpage with hpage | hpage
    · exact h.pages hpage
    · exact .inr (h.pageAt.mp hpage)

end Follows

def logged (s : Session) (accesses : List Access) : Session :=
  { s with store := { s.store with log := s.store.log ++ accesses } }

theorem logged_follows {accesses : List Access} (h : ∀ access ∈ accesses, s.Admits access) :
    Follows s (s.logged accesses) :=
  .marks rfl h rfl rfl rfl id

variable {key : SubstateKey} {access : Access}

theorem Admits.of_follows (h : s.Admits access) (hfollows : Follows s t) : t.Admits access := by
  obtain ⟨rep, held, htable, hadmits⟩ := h
  exact ⟨rep, held, hfollows.table ▸ htable, hadmits⟩

theorem admits_of_actingKey (h : s.actingKey site element op = .ok key)
    (hadmits : ∀ held : Capability, held.key = some key → grants held op = true →
      held.Admits access) : s.Admits access := by
  obtain ⟨held, hacting, hkey⟩ := actingKey_ok h
  obtain ⟨rep, -, htable, -, hgrants⟩ := acting_ok hacting
  exact ⟨rep, held, htable, hadmits held hkey hgrants⟩

theorem admits_read (hop : op = .read ∨ op = .seal ∨ op = .openSeal ∨ op = .balance)
    (h : s.actingKey site element op = .ok key) : s.Admits ⟨.point key, .read⟩ := by
  refine admits_of_actingKey h fun held hkey hgrants => ?_
  rcases hop with rfl | rfl | rfl | rfl <;> cases held <;> cases hgrants <;>
    (obtain rfl := some.inj hkey; first | exact rfl | exact .inl rfl)

theorem admits_write (hop : op = .write ∨ op = .clear ∨ op = .seal)
    (h : s.actingKey site element op = .ok key) : s.Admits ⟨.point key, .write⟩ := by
  refine admits_of_actingKey h fun held hkey hgrants => ?_
  rcases hop with rfl | rfl | rfl <;> cases held <;> cases hgrants <;>
    (obtain rfl := some.inj hkey; exact .inr rfl)

variable {held : Capability}

def Judged (settlement : Kernel.Settlement) (key : SubstateKey) (reads : List Access) : Prop :=
  settlement = .immediate key ∧ reads = [⟨.point key, .read⟩] ∨ settlement = .queued key ∧
    reads = []

theorem admits_settlement {settlement : Kernel.Settlement} {reads : List Access}
    (htable : s.table[rep]? = some held) (hsettles : held.settlement = some settlement)
    (h : Judged settlement key reads) :
    (∀ access ∈ reads, s.Admits access) ∧ s.Admits ⟨.point key, .delta⟩ := by
  rcases h with ⟨rfl, rfl⟩ | ⟨rfl, rfl⟩
  · cases held with
    | amount key' moves =>
      cases hsettles
      have hread : s.Admits ⟨.point key, .read⟩ := ⟨rep, _, htable, .inl rfl⟩
      exact ⟨by simpa using hread, rep, _, htable, .inr rfl⟩
    | _ => cases hsettles
  · cases held with
    | delta key' moves =>
      cases hsettles
      exact ⟨nofun, rep, _, htable, rfl⟩
    | _ => cases hsettles

theorem mem_mergedEntries {m : MemoryStore} {o : OverlayStore} (hbase : o.base = m.toBaseline)
    {owner : Address} {collection lo hi limit : ℕ} {p : ℕ × Bytes}
    (hp : p ∈ o.mergedEntries owner collection lo hi limit) : lo ≤ p.1 ∧ p.1 ≤ hi := by
  rw [mergedEntries_eq hbase] at hp
  unfold MemoryStore.entriesInRange at hp
  split at hp
  · cases hp
  · have hscan := mem_scan.mp (mem_of_mem_take hp)
    exact ⟨hscan.1, hscan.2.1⟩

theorem admits_interval (htable : s.table[rep]? = some held) (hof : held.interval = some interval)
    (h : interval.Reads access) : s.Admits access := by
  refine ⟨rep, held, htable, ?_⟩
  cases held <;> cases hof <;> first | exact h | exact .inl h

theorem actingInterval_table
    (h : s.actingInterval site element op = .ok interval) : ∃ (rep : ℕ) (held : Capability),
      s.repAt site element = .ok rep ∧ s.table[rep]? = some held ∧
        held.interval = some interval ∧ grants held op = true := by
  obtain ⟨held, hacting, hof⟩ := actingInterval_ok h
  obtain ⟨rep, hrep, htable, -, hgrants⟩ := acting_ok hacting
  exact ⟨rep, held, hrep, htable, hof, hgrants⟩

variable {order : ℕ}

theorem admits_entry (hop : op = .writeEntries ∨ op = .fileInstances ∨ op = .takeInstances)
    (h : s.actingInterval site element op = .ok interval)
    (horder : interval.lo ≤ order ∧ order ≤ interval.hi) :
    s.Admits ⟨.entry interval.owner interval.collection order, .write⟩ := by
  obtain ⟨rep, held, -, htable, hof, hgrants⟩ := actingInterval_table h
  refine ⟨rep, held, htable, ?_⟩
  have hwrites : interval.Writes ⟨.entry interval.owner interval.collection order, .write⟩ :=
    ⟨order, rfl, horder⟩
  rcases hop with rfl | rfl | rfl <;> cases held <;> first
    | (cases hgrants; done)
    | (cases hof; exact .inr hwrites)

theorem holdScan_follows (h : s.PageAt site element page) :
    Follows s (s.holdScan site element page) where
  log _ haccess := .inl haccess
  sites := rfl
  entries := rfl
  table := rfl
  pages {site' element' page'} hpage := by
    change (if (site', element') = (site, element) then some page
      else s.ranges.scans (site', element')) = some page' at hpage
    split at hpage
    · rename_i hat
      obtain ⟨rfl, rfl⟩ := Prod.mk.inj hat
      obtain rfl := some.inj hpage
      exact .inr h
    · exact .inl hpage

theorem invalidate_follows (owner : Address) (collection : ℕ) :
    Follows s (s.invalidate owner collection) := by
  refine .marks (append_nil _).symm nofun rfl rfl rfl fun {at_ page} hpage => ?_
  change (if s.scansCollection owner collection at_ then none else s.ranges.scans at_) = some page
    at hpage
  split at hpage
  · cases hpage
  · exact hpage

theorem indexed_ok {index : ℕ} {found : ℕ × Bytes} (h : indexed page index = .ok found) :
    found ∈ page.entries := by
  unfold indexed at h
  split at h
  · rename_i hfound
    cases h
    exact mem_of_getElem? hfound
  · cases h

theorem holds_iff : interval.holds order = true ↔ interval.lo ≤ order ∧ order ≤ interval.hi := by
  simp [Interval.holds]

variable {cap : ℕ}

def Roomy (s : Session) (rep cap : ℕ) : Prop := (s.ranges.written rep).Nonempty → 1 ≤ cap

theorem cap_of_charge (hrep : s.repAt site element = .ok rep)
    (hroomy : s.Roomy rep cap) (h : s.chargeWrite site element order cap = .ok t) : 1 ≤ cap := by
  obtain ⟨rep', hrep', h⟩ := bind_ok.mp h
  obtain rfl : rep' = rep := Except.ok.inj (hrep'.symm.trans hrep)
  dsimp only at h
  split at h
  · cases h
  rename_i hroom
  by_cases hin : order ∈ s.ranges.written rep'
  · exact hroomy ⟨order, hin⟩
  · have hlt : ¬cap ≤ (s.ranges.written rep').card := fun hle => hroom ⟨hin, hle⟩
    omega

theorem foldlM_follows {judge : Session → ℕ → Except SessionTrap Session} {P : Session → Prop}
    {orders : List ℕ} (h : orders.foldlM judge s = .ok t) (hs : P s)
    (hjudge : ∀ s t order, order ∈ orders → P s → judge s order = .ok t → Follows s t ∧ P t) :
    Follows s t ∧ P t := by
  induction orders generalizing s with
  | nil =>
    cases h
    exact ⟨.refl _, hs⟩
  | cons order rest ih =>
    rw [foldlM_cons] at h
    obtain ⟨u, hfirst, h⟩ := bind_ok.mp h
    obtain ⟨hfollows, hu⟩ := hjudge _ _ _ mem_cons_self hs hfirst
    obtain ⟨hrest, ht⟩ := ih h hu fun s t order horder =>
      hjudge s t order (mem_cons_of_mem _ horder)
    exact ⟨hfollows.trans hrest, ht⟩

theorem foldl_follows {change : Session → ℕ → Session} {orders : List ℕ}
    (hchange : ∀ u order, order ∈ orders → Follows s u → Follows u (change u order)) :
    Follows s (orders.foldl change s) := by
  have hfold : ∀ (rest : List ℕ) (u : Session), (∀ order ∈ rest, order ∈ orders) → Follows s u →
      Follows s (rest.foldl change u) := by
    intro rest
    induction rest with
    | nil => exact fun _ _ hu => hu
    | cons order rest ih =>
      intro u hin hu
      refine ih _ (fun o ho => hin o (mem_cons_of_mem _ ho)) ?_
      exact hu.trans (hchange u order (hin order mem_cons_self) hu)
  exact hfold orders s (fun _ h => h) (.refl s)

theorem admits_probe (htable : s.table[rep]? = some held) (hof : held.interval = some interval)
    (horder : interval.lo ≤ order ∧ order ≤ interval.hi) (hcap : 1 ≤ interval.cap) :
    s.Admits ⟨.range interval.owner interval.collection order order 1, .read⟩ :=
  admits_interval htable hof ⟨_, _, _, rfl, hcap, .inr ⟨horder.1, Nat.le_refl _, horder.2⟩⟩

end Session

end HyperscaleVm.Kernel

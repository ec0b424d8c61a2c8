import HyperscaleVm.Kernel.Session.Coverage
import HyperscaleVm.Types.Price

/-!
# What is written is what was priced
-/

namespace HyperscaleVm.Kernel
open Effects List Option Bool Library
open Std (ExtTreeMap)

namespace Session

variable (s : Session)

def movedCells : List SubstateKey :=
  (s.store.active.pendingDeltas.keys ++ (ascending s.taken).filterMap s.cellAt).dedup

def writtenCells : List SubstateKey := (s.store.active.cells.keys ++ s.movedCells).dedup

def writtenEntries : List EntryKey := s.store.active.entries.keys

def cellBytes (key : SubstateKey) : ℕ :=
  ((s.store.active.cells[key]?.join).getD []).length +
    if key ∈ s.movedCells then AMOUNT_CELL_BYTES else 0

def entryBytes (key : EntryKey) : ℕ := ((s.store.active.entries[key]?.join).getD []).length

def leavesWeighed (cell : SubstateKey → ℕ) (entry : EntryKey → ℕ) : ℕ :=
  (s.writtenCells.map cell).sum + (s.writtenEntries.map entry).sum

def bytesWritten : ℕ := s.leavesWeighed s.cellBytes s.entryBytes

def bytesKept : ℕ := s.leavesWeighed s.cellBytes fun key => ENTRY_LEAF_BYTES + s.entryBytes key

def writeCost : ℕ :=
  s.leavesWeighed (fun key => writtenLeaf (s.cellBytes key))
    fun key => writtenLeaf (ENTRY_LEAF_BYTES + s.entryBytes key)

def sealedCells (s : Session) : List SessionOp → List SubstateKey
  | [] => []
  | op :: ops =>
    (match op with
      | .sealCell site element => (s.actingKey site element .seal).toOption.toList
      | _ => []) ++
    match s.step op with
    | .ok (t, _) => t.sealedCells ops
    | .error _ => []

end Session

def Capability.writesOver : Capability → Option Interval
  | .rangeWrite interval | .instances interval _ => some interval
  | _ => none

def Capability.movesAt : Capability → Option SubstateKey
  | .amount key _ | .delta key _ | .reserve key _ => some key
  | _ => none

/-- Every entry written is charged to a capability over its collection and fits it, and no
capability was charged past its cap. -/
structure EntriesCharged (s : Session) : Prop where
  entries : ∀ {key : EntryKey} {value : Option Bytes},
    s.store.active.entries[key]? = some value →
    ∃ (rep : ℕ) (held : Capability) (interval : Interval),
      s.table[rep]? = some held ∧ held.writesOver = some interval ∧
      interval.owner = key.owner ∧ interval.collection = key.collection ∧
      key.order ∈ s.ranges.written rep ∧
      ∀ bytes, value = some bytes → bytes.length ≤ interval.width
  within : s.WithinCaps

structure Budgeted (s : Session) : Prop extends EntriesCharged s where
  cells : ∀ {key : SubstateKey} {value : Option Bytes}, s.store.active.cells[key]? = some value →
    (∃ rep : ℕ, s.table[rep]? = some (.write key)) ∧
      ∀ bytes, value = some bytes → bytes.length ≤ s.declared.widthOf (.point key)
  queued : ∀ {key : SubstateKey}, key ∈ s.store.active.pendingDeltas →
    ∃ (rep : ℕ) (held : Capability), s.table[rep]? = some held ∧ held.movesAt = some key
  taken : ∀ {rep : ℕ}, rep ∈ s.taken →
    ∃ (key : SubstateKey) (n : ℕ), s.table[rep]? = some (.reserve key n)

namespace Charge

variable {s t : Session} {rep cap : ℕ} {orders : Finset ℕ}

theorem grows (h : Charge s t rep cap orders) (other : ℕ) :
    s.ranges.written other ⊆ t.ranges.written other := by
  by_cases hrep : other = rep
  · subst hrep
    rw [h.joined]
    exact Finset.subset_union_left
  · rw [h.only hrep]

end Charge

variable {s t : Session} {held : Capability} {op : SessionOp} {a : OpAnswer}

namespace EntriesCharged

theorem charged {rep : ℕ} {interval : Interval} {orders : Finset ℕ} {value : Option Bytes}
    (h : EntriesCharged s) (htable : t.table = s.table) (hwithin : t.WithinCaps)
    (hrep : s.table[rep]? = some held) (hover : held.writesOver = some interval)
    (hcharge : Charge s t rep interval.cap orders)
    (hwidth : ∀ bytes, value = some bytes → bytes.length ≤ interval.width)
    (hentries : ∀ key : EntryKey, t.store.active.entries[key]? =
      if key.owner = interval.owner ∧ key.collection = interval.collection ∧ key.order ∈ orders
      then some value else s.store.active.entries[key]?) : EntriesCharged t := by
  refine ⟨?_, hwithin⟩
  intro key v hv
  rw [htable]
  rw [hentries key] at hv
  split at hv
  · rename_i hat
    obtain rfl := some.inj hv
    refine ⟨rep, held, interval, hrep, hover, hat.1.symm, hat.2.1.symm, ?_, hwidth⟩
    rw [hcharge.joined]
    exact Finset.mem_union_right _ hat.2.2
  · obtain ⟨rep', held', interval', hrep', hover', howner, hcollection, horder, hlen⟩ :=
      h.entries hv
    exact ⟨rep', held', interval', hrep', hover', howner, hcollection,
      hcharge.grows rep' horder, hlen⟩

theorem step (h : EntriesCharged s) (hstep : s.step op = .ok (t, a)) : EntriesCharged t := by
  obtain ⟨deed, -, -, hbooks, hsetting, hcharges⟩ := Session.step_makes hstep
  have htable : t.table = s.table := congrArg Setting.table hsetting
  have hentries : t.store.active.entries = (deed.apply s.books).entries :=
    congrArg Books.entries hbooks
  have hwithin := h.within.step hstep
  have huncharged (hwritten : t.ranges.written = s.ranges.written)
      (hsame : t.store.active.entries = s.store.active.entries) : EntriesCharged t := by
    refine ⟨?_, hwithin⟩
    rw [htable, hwritten, hsame]
    exact h.entries
  cases deed with
  | setEntry key value =>
    obtain ⟨rep, interval, hrep, howner, hcollection, hcharge, -, hwidth⟩ := hcharges
    refine h.charged htable hwithin hrep rfl hcharge hwidth fun key' => ?_
    rw [hentries, howner, hcollection]
    change (s.store.active.entries.insert key value)[key']? = _
    rw [Library.getElem?_insert_eq]
    by_cases hat : key = key'
    · subst hat
      rw [if_pos rfl, if_pos ⟨rfl, rfl, Finset.mem_singleton_self _⟩]
    rw [if_neg hat, if_neg]
    rintro ⟨ho, hc, hr⟩
    obtain ⟨owner, collection, order⟩ := key
    obtain ⟨owner', collection', order'⟩ := key'
    obtain rfl : owner' = owner := ho
    obtain rfl : collection' = collection := hc
    obtain rfl : order' = order := Finset.mem_singleton.mp hr
    exact hat rfl
  | takeInstances interval ids resource =>
    obtain ⟨rep, moves, hrep, hcharge⟩ := hcharges
    have hfits : ∀ bytes : Bytes, none = some bytes → bytes.length ≤ interval.width := nofun
    refine h.charged htable hwithin hrep rfl hcharge hfits fun key => ?_
    rw [hentries]
    exact Books.getElem?_setEntries.trans (by simp only [mem_ascending]; rfl)
  | fileInstances interval ids funds value =>
    obtain ⟨rep, moves, hrep, hcharge, hwidth⟩ := hcharges
    have hfits : ∀ bytes, some value = some bytes → bytes.length ≤ interval.width := by
      rintro bytes ⟨⟩
      exact hwidth
    refine h.charged htable hwithin hrep rfl hcharge hfits fun key => ?_
    rw [hentries]
    exact Books.getElem?_setEntries.trans (by simp only [mem_ascending]; rfl)
  | setCell key value => exact huncharged hcharges.1 hentries
  | _ => exact huncharged hcharges hentries

end EntriesCharged

namespace Budgeted

theorem movesAt_of_settlement {key : SubstateKey}
    (h : held.settlement = some (.immediate key) ∨ held.settlement = some (.queued key)) :
    held.movesAt = some key := by
  cases held <;> rcases h with h | h <;> cases h <;> rfl

theorem moved (h : Budgeted s) (hcharged : EntriesCharged t) (hsetting : t.setting = s.setting)
    (hcells : t.store.active.cells = s.store.active.cells ∨ ∃ (key : SubstateKey)
      (value : Option Bytes), t.store.active.cells = s.store.active.cells.insert key value ∧
        (∃ rep : ℕ, s.table[rep]? = some (.write key)) ∧
        ∀ bytes, value = some bytes → bytes.length ≤ s.declared.widthOf (.point key))
    (hqueue : t.store.active.pendingDeltas = s.store.active.pendingDeltas ∨
      ∃ (key : SubstateKey) (op : DeltaOp) (rep : ℕ) (held : Capability),
        t.store.active.pendingDeltas = pushDelta s.store.active.pendingDeltas key [op] ∧
          s.table[rep]? = some held ∧ held.movesAt = some key)
    (htaken : t.taken = s.taken ∨ ∃ (rep : ℕ) (key : SubstateKey) (n : ℕ),
      t.taken = insert rep s.taken ∧ s.table[rep]? = some (.reserve key n)) : Budgeted t := by
  have htable : t.table = s.table := congrArg Setting.table hsetting
  have hdeclared : t.declared = s.declared := congrArg Setting.declared hsetting
  refine ⟨hcharged, ?cells, ?queued, ?taken⟩
  case cells =>
    intro key value hvalue
    rw [htable, hdeclared]
    rcases hcells with hcells | ⟨key', value', hcells, hwrite, hwidth⟩
    · exact h.cells (hcells ▸ hvalue)
    rw [hcells, Library.getElem?_insert_eq] at hvalue
    split at hvalue
    · rename_i hkey
      subst hkey
      obtain rfl := some.inj hvalue
      exact ⟨hwrite, hwidth⟩
    · exact h.cells hvalue
  case queued =>
    intro key hkey
    rw [htable]
    rcases hqueue with hqueue | ⟨key', op, rep, held, hqueue, hrep, hmoves⟩
    · exact h.queued (hqueue ▸ hkey)
    · rw [hqueue, pushDelta, ExtTreeMap.mem_insert, Std.compare_eq_iff_eq] at hkey
      rcases hkey with rfl | hkey
      · exact ⟨rep, held, hrep, hmoves⟩
      · exact h.queued hkey
  case taken =>
    intro rep hrep
    rw [htable]
    rcases htaken with htaken | ⟨rep', key, n, htaken, htook⟩
    · exact h.taken (htaken ▸ hrep)
    · rw [htaken] at hrep
      rcases Finset.mem_insert.mp hrep with rfl | hrep
      · exact ⟨key, n, htook⟩
      · exact h.taken hrep

theorem step (h : Budgeted s) (hstep : s.step op = .ok (t, a))
    (hseal : ∀ site element key, op = .sealCell site element →
      s.actingKey site element .seal = .ok key →
      (Session.sealBytes s.env.epoch).length ≤ s.declared.widthOf (.point key)) : Budgeted t := by
  have hmoved := h.moved (h.toEntriesCharged.step hstep)
  obtain ⟨deed, hallowed, -, hbooks, hsetting, hcharges⟩ := Session.step_makes hstep
  have hcells : t.store.active.cells = (deed.apply s.books).cells := congrArg Books.cells hbooks
  have hqueue : t.store.active.pendingDeltas = (deed.apply s.books).queue :=
    congrArg Books.queue hbooks
  have htaken : t.taken = (deed.apply s.books).taken := congrArg Books.taken hbooks
  cases deed with
  | setCell key value =>
    obtain ⟨rep, r, hholds⟩ := hallowed
    refine hmoved hsetting (.inr ⟨key, value, hcells, ⟨rep, hholds.1⟩, ?_⟩) (.inl hqueue)
      (.inl htaken)
    intro bytes hbytes
    rcases hcharges.2 bytes hbytes with hle | ⟨site, element, hop, hkey, rfl⟩
    · exact hle
    · exact hseal site element key hop hkey
  | debit key amount resource =>
    obtain ⟨rep, held, hholds, hsettled⟩ := hallowed
    exact hmoved hsetting (.inl hcells)
      (.inr ⟨key, .sub amount, rep, held, hqueue, hholds.1, movesAt_of_settlement hsettled⟩)
      (.inl htaken)
  | credit key amount funds =>
    obtain ⟨rep, held, resource, hholds, hsettled, -⟩ := hallowed
    exact hmoved hsetting (.inl hcells)
      (.inr ⟨key, .add amount, rep, held, hqueue, hholds.1, movesAt_of_settlement hsettled⟩)
      (.inl htaken)
  | takeReserved rep amount resource origin =>
    obtain ⟨-, key, hholds, -⟩ := hallowed
    exact hmoved hsetting (.inl hcells) (.inl hqueue) (.inr ⟨rep, key, amount, htaken, hholds.1⟩)
  | _ => exact hmoved hsetting (.inl hcells) (.inl hqueue) (.inl htaken)

theorem run {ops : List SessionOp} (h : Budgeted s) (hrun : s.run ops = .ok t)
    (hseal : ∀ key ∈ s.sealedCells ops,
      (Session.sealBytes s.env.epoch).length ≤ s.declared.widthOf (.point key)) : Budgeted t := by
  induction ops generalizing s with
  | nil =>
    cases hrun
    exact h
  | cons op ops ih =>
    unfold Session.run at hrun
    rw [foldlM_cons] at hrun
    obtain ⟨u, hu, hrun⟩ := bind_ok.mp hrun
    obtain ⟨⟨u', a⟩, hstep, rfl⟩ := Library.map_ok.mp hu
    have hsetting := (Session.step_does hstep).choose_spec.2.2.2
    have henv : u'.env = s.env := congrArg Setting.env hsetting
    have hdeclared : u'.declared = s.declared := congrArg Setting.declared hsetting
    refine ih (h.step hstep ?_) hrun ?_
    · rintro site element key rfl hkey
      refine hseal key (mem_append_left _ ?_)
      change key ∈ (s.actingKey site element .seal).toOption.toList
      rw [hkey]
      exact mem_singleton_self key
    · intro key hkey
      rw [henv, hdeclared]
      refine hseal key (mem_append_right _ ?_)
      rw [hstep]
      exact hkey

end Budgeted

def writtenCollection (access : DeclaredAccess) : Option EffectTarget :=
  match access.effect.target, access.effect.mode with
  | .point _, _ | _, .read => none
  | target, _ => some target

def writtenRange (access : DeclaredAccess) : Option EffectTarget :=
  match writtenCollection access with
  | some (.range owner collection lo hi cap) => some (.range owner collection lo hi cap)
  | _ => none

/-- No two accesses write one collection target; no two one range is enough where every order
written is known to be within its bounds. -/
def WritesOnce (declaration : Declaration) (bounded : Prop) : Prop :=
  (declaration.ordered.filterMap writtenCollection).Nodup ∨
    bounded ∧ (declaration.ordered.filterMap writtenRange).Nodup

variable {access : DeclaredAccess} {target : EffectTarget} {interval : Interval}

theorem intervalOf_bounds {width : ℕ} (h : intervalOf target width = some interval) :
    (∀ key, target ≠ .point key) ∧
      interval.cap = target.leavesWritten ∧ interval.width = width := by
  cases target <;> cases h <;> exact ⟨nofun, rfl, rfl⟩

theorem writtenCollection_some (h : writtenCollection access = some target) :
    access.effect.target = target ∧ (∀ key, target ≠ .point key) ∧ access.effect.mode ≠ .read := by
  unfold writtenCollection at h
  split at h
  · cases h
  · cases h
  · rename_i hpoint hread
    cases h
    exact ⟨rfl, hpoint, hread⟩

variable {store : OverlayStore} {declaration : Declaration} {tx : TxHash} {env : EnvInputs}
  {codec : Codec} {judges : OwnerSet}

theorem ViewsAgree.writes (h : ViewsAgree declaration) (haccess : access ∈ declaration.ordered)
    (hmode : access.effect.mode ≠ .read) :
    access.effect.target ∈ declaration.set.writtenTargets := by
  obtain ⟨declared, hfound, mode, hmem, hkind⟩ := h.declares haccess
  have hwrites : declaration.set.writes access.effect.target = true := by
    unfold EffectSet.writes
    rw [hfound]
    refine any_eq_true.mpr ⟨mode, Std.ExtTreeSet.mem_toList.mpr hmem, ?_⟩
    rw [decide_eq_true_eq]
    rintro rfl
    cases hread : access.effect.mode with
    | read => exact hmode hread
    | _ =>
      rw [hread] at hkind
      cases hkind
  refine mem_filter.mpr ⟨ExtTreeMap.mem_keys.mpr ?_, hwrites⟩
  rw [ExtTreeMap.mem_iff_isSome_getElem?, hfound]
  rfl

/-- An access writes the cell, as value or as bytes. -/
def WritesCell (declaration : Declaration) (key : SubstateKey) (value : Bool) : Prop :=
  ∃ access ∈ declaration.ordered, access.effect.target = .point key ∧
    access.effect.mode ≠ .read ∧ access.holds.isSome = value

section

variable {t : Session} {rep : ℕ} {key : SubstateKey}

theorem Tabled.write_access (h : Tabled declaration t.setting)
    (hrep : t.table[rep]? = some (.write key)) : WritesCell declaration key false := by
  obtain ⟨access, haccess, -, hcapability⟩ := h.access hrep
  cases hcapability with
  | write target mode bytes =>
    exact ⟨access, List.mem_of_getElem? haccess, target, by rw [mode]; nofun, by simpa using bytes⟩

variable {held : Capability}

theorem Tabled.moves_access (h : Tabled declaration t.setting) (hrep : t.table[rep]? = some held)
    (hmoves : held.movesAt = some key) : WritesCell declaration key true := by
  obtain ⟨access, haccess, -, hcapability⟩ := h.access hrep
  have hmem := List.mem_of_getElem? haccess
  cases hcapability with
  | amount target mode value | delta target mode value | reserve target mode value =>
    cases hmoves
    exact ⟨access, hmem, target, by rw [mode]; nofun, value⟩
  | _ => cases hmoves

theorem Tabled.over_access (h : Tabled declaration t.setting) (hrep : t.table[rep]? = some held)
    (hover : held.writesOver = some interval) : ∃ access, declaration.ordered[rep]? = some access ∧
      writtenCollection access = some access.effect.target ∧ access.effect.mode ≠ .read ∧
      intervalOf access.effect.target (declaration.set.widthOf access.effect.target) =
        some interval := by
  obtain ⟨access, haccess, -, hcapability⟩ := h.access hrep
  cases hcapability with
  | rangeWrite target mode bytes | instances target mode value =>
    obtain rfl := some.inj hover
    refine ⟨access, haccess, ?_, by rw [mode]; nofun, target⟩
    unfold writtenCollection
    rw [mode]
    cases hpoint : access.effect.target with
    | point key => exact absurd hpoint ((intervalOf_bounds target).1 key)
    | _ => rfl
  | _ => cases hover

end

section

variable (declaration : Declaration) (t : Session)

def accessesOf (target : EffectTarget) : Finset ℕ :=
  (Finset.range declaration.ordered.length).filter fun rep =>
    declaration.ordered[rep]?.bind writtenCollection = some target

def leavesUnder (target : EffectTarget) : Finset (SubstateKey ⊕ EntryKey) :=
  match contentsOf target with
  | .leaf key => {.inl key}
  | .entries owner collection =>
    (accessesOf declaration target).biUnion fun rep =>
      (t.ranges.written rep).image fun order => .inr ⟨owner, collection, order⟩

variable {declaration t}

theorem Tabled.over_capability (htabled : Tabled declaration t.setting) {rep : ℕ}
    (hrep : rep ∈ accessesOf declaration target) : ∃ held interval,
      t.table[rep]? = some held ∧ held.interval = some interval ∧
        intervalOf target (declaration.set.widthOf target) = some interval := by
  obtain ⟨access, haccess, hwritten⟩ := bind_eq_some_iff.mp (Finset.mem_filter.mp hrep).2
  have hlt : rep < t.table.length := by
    have hlength : t.table.length = declaration.ordered.length := htabled.length
    rw [hlength]
    exact (List.getElem?_eq_some_iff.mp haccess).1
  obtain ⟨held, hheld⟩ : ∃ held, t.table[rep]? = some held := ⟨_, List.getElem?_eq_getElem hlt⟩
  obtain ⟨access', haccess', -, hcapability⟩ := htabled.access hheld
  obtain rfl : access' = access := some.inj (haccess'.symm.trans haccess)
  obtain ⟨rfl, hpoint, hread⟩ := writtenCollection_some hwritten
  cases hcapability with
  | rangeWrite target mode bytes | instances target mode value => exact ⟨_, _, hheld, rfl, target⟩
  | rangeRead target mode => exact absurd mode hread
  | read target | amountRead target | write target | amount target | delta target
  | reserve target =>
    exact absurd target (hpoint _)

theorem card_accessesOf {f : DeclaredAccess → Option EffectTarget}
    (h : (declaration.ordered.filterMap f).Nodup)
    (hf : ∀ access, writtenCollection access = some target → f access = some target) :
    (accessesOf declaration target).card ≤ 1 := by
  have hpairs : declaration.ordered.Pairwise fun a b =>
      ∀ c, f a = some c → ∀ c', f b = some c' → c ≠ c' := pairwise_filterMap.mp h
  refine Finset.card_le_one.mpr fun i hi j hj => ?_
  obtain ⟨hi, hiwrites⟩ := Finset.mem_filter.mp hi
  obtain ⟨hj, hjwrites⟩ := Finset.mem_filter.mp hj
  rw [Finset.mem_range] at hi hj
  rw [List.getElem?_eq_getElem hi, bind_some] at hiwrites
  rw [List.getElem?_eq_getElem hj, bind_some] at hjwrites
  rw [pairwise_iff_getElem] at hpairs
  rcases lt_trichotomy i j with hlt | heq | hlt
  · exact absurd rfl (hpairs i j hi hj hlt target (hf _ hiwrites) target (hf _ hjwrites))
  · exact heq
  · exact absurd rfl (hpairs j i hj hi hlt target (hf _ hjwrites) target (hf _ hiwrites))

theorem card_written_under (h : Budgeted t) (htabled : Tabled declaration t.setting)
    (hone : (accessesOf declaration target).card ≤ 1) (leaf : ℕ → SubstateKey ⊕ EntryKey) :
    ((accessesOf declaration target).biUnion fun rep => (t.ranges.written rep).image leaf).card ≤
      target.leavesWritten := by
  have heach : ∀ rep ∈ accessesOf declaration target,
      ((t.ranges.written rep).image leaf).card ≤ target.leavesWritten := by
    intro rep hrep
    obtain ⟨held, interval, hheld, hof, hinterval⟩ := htabled.over_capability hrep
    exact Finset.card_image_le.trans
      ((h.within rep held interval hheld hof).trans_eq (intervalOf_bounds hinterval).2.1)
  calc _ ≤ (accessesOf declaration target).card * target.leavesWritten :=
        Finset.card_biUnion_le_card_mul _ _ _ heach
    _ ≤ 1 * target.leavesWritten := Nat.mul_le_mul_right _ hone
    _ = target.leavesWritten := Nat.one_mul _

theorem card_leavesUnder (h : Budgeted t) (htabled : Tabled declaration t.setting)
    (honce : WritesOnce declaration t.WithinBounds) (target : EffectTarget) :
    (leavesUnder declaration t target).card ≤ target.leavesWritten := by
  cases target with
  | point key => exact (Finset.card_singleton _).le
  | range owner collection lo hi cap =>
    refine card_written_under h htabled ?_ _
    rcases honce with hnodup | ⟨-, hnodup⟩
    · exact card_accessesOf hnodup fun _ hwritten => hwritten
    · exact card_accessesOf hnodup fun _ hwritten => by rw [writtenRange, hwritten]
  | entry owner collection order =>
    rcases honce with hnodup | ⟨hinside, -⟩
    · exact card_written_under h htabled (card_accessesOf hnodup fun _ hwritten => hwritten) _
    -- however many accesses write the entry, it is the one leaf within their bounds
    refine (Finset.card_le_card fun leaf hleaf => ?_).trans_eq
      (Finset.card_singleton (.inr ⟨owner, collection, order⟩))
    obtain ⟨rep, hrep, hleaf⟩ := Finset.mem_biUnion.mp hleaf
    obtain ⟨order', horder, rfl⟩ := Finset.mem_image.mp hleaf
    obtain ⟨held, interval, hheld, hof, hinterval⟩ := htabled.over_capability hrep
    cases hinterval
    have hbounds := Session.holds_iff.mp (hinside rep held _ hheld hof order' horder)
    rw [Finset.mem_singleton, le_antisymm hbounds.2 hbounds.1]

variable {key : SubstateKey} (h : Budgeted t) (htabled : Tabled declaration t.setting)
include h htabled

theorem Budgeted.moved_access (hkey : key ∈ t.movedCells) : WritesCell declaration key true := by
  rcases mem_append.mp (mem_dedup.mp hkey) with hkey | hkey
  · obtain ⟨rep, held, hrep, hmoves⟩ := h.queued (ExtTreeMap.mem_keys.mp hkey)
    exact htabled.moves_access hrep hmoves
  obtain ⟨rep, hrep, hcell⟩ := mem_filterMap.mp hkey
  obtain ⟨key', n, htable⟩ := h.taken (mem_ascending.mp hrep)
  unfold Session.cellAt at hcell
  rw [htable] at hcell
  obtain rfl := some.inj hcell
  exact htabled.moves_access htable rfl

theorem Budgeted.write_access (hkey : key ∈ t.store.active.cells) :
    WritesCell declaration key false := by
  rw [ExtTreeMap.mem_iff_isSome_getElem?] at hkey
  obtain ⟨value, hvalue⟩ := isSome_iff_exists.mp hkey
  obtain ⟨⟨rep, hrep⟩, -⟩ := h.cells hvalue
  exact htabled.write_access hrep

theorem Budgeted.cell_under (hagree : ViewsAgree declaration) (hkey : key ∈ t.writtenCells) :
    EffectTarget.point key ∈ declaration.set.writtenTargets := by
  have hwrites : ∃ value, WritesCell declaration key value := by
    rcases mem_append.mp (mem_dedup.mp hkey) with hkey | hkey
    · exact ⟨_, h.write_access htabled (ExtTreeMap.mem_keys.mp hkey)⟩
    · exact ⟨_, h.moved_access htabled hkey⟩
  obtain ⟨-, access, haccess, htarget, hmode, -⟩ := hwrites
  rw [← htarget]
  exact hagree.writes haccess hmode

theorem Budgeted.cellBytes_le (hdeclared : t.declared = declaration.set)
    (hamounts : ∀ access ∈ declaration.ordered, access.holds.isSome = true →
      access.effect.mode ≠ .read → ∀ key, access.effect.target = .point key →
        AMOUNT_CELL_BYTES ≤ declaration.set.widthOf (.point key)) (key : SubstateKey) :
    t.cellBytes key ≤ declaration.set.widthOf (.point key) := by
  unfold Session.cellBytes
  by_cases hmoved : key ∈ t.movedCells
  · obtain ⟨access, haccess, htarget, hmode, hholds⟩ := h.moved_access htabled hmoved
    have hamount := hamounts access haccess hholds hmode key htarget
    -- bytes and value are never declared of one cell
    have hbytes : t.store.active.cells[key]? = none := by
      rw [← not_isSome_iff_eq_none, ← ExtTreeMap.mem_iff_isSome_getElem?]
      intro hkey
      obtain ⟨access', haccess', htarget', -, hnone⟩ := h.write_access htabled hkey
      have hsame : access.holds = access'.holds := by
        refine htabled.agree access haccess access' haccess' ?_
        rw [htarget, htarget']
      rw [hsame, hnone] at hholds
      cases hholds
    rw [if_pos hmoved, hbytes]
    simpa using hamount
  · rw [if_neg hmoved, add_zero]
    cases hvalue : t.store.active.cells[key]? with
    | none => simp
    | some value =>
      cases value with
      | none => simp
      | some bytes =>
        have hle := (h.cells hvalue).2 bytes rfl
        rw [hdeclared] at hle
        exact hle

theorem Budgeted.entry_under (hagree : ViewsAgree declaration) {key : EntryKey}
    (hkey : key ∈ t.writtenEntries) :
    ∃ target ∈ declaration.set.writtenTargets, .inr key ∈ leavesUnder declaration t target ∧
      (∀ cell, target ≠ .point cell) ∧ t.entryBytes key ≤ declaration.set.widthOf target := by
  have hmem := ExtTreeMap.mem_keys.mp hkey
  rw [ExtTreeMap.mem_iff_isSome_getElem?] at hmem
  obtain ⟨value, hvalue⟩ := isSome_iff_exists.mp hmem
  obtain ⟨rep, held, interval, hrep, hover, howner, hcollection, horder, hwidth⟩ := h.entries hvalue
  obtain ⟨access, haccess, hwritten, hmode, hinterval⟩ := htabled.over_access hrep hover
  obtain ⟨hpoint, -, hwidthOf⟩ := intervalOf_bounds hinterval
  have hcontents := intervalOf_contents hinterval
  have hlt := (List.getElem?_eq_some_iff.mp haccess).1
  refine ⟨access.effect.target, hagree.writes (List.mem_of_getElem? haccess) hmode, ?_, hpoint, ?_⟩
  · unfold leavesUnder
    rw [hcontents, howner, hcollection]
    refine Finset.mem_biUnion.mpr ⟨rep, ?_, Finset.mem_image.mpr ⟨key.order, horder, rfl⟩⟩
    refine Finset.mem_filter.mpr ⟨Finset.mem_range.mpr hlt, ?_⟩
    rw [haccess, bind_some, hwritten]
  · unfold Session.entryBytes
    rw [hvalue, ← hwidthOf]
    cases value with
    | none => simp
    | some bytes => exact hwidth bytes rfl

theorem Budgeted.weighed_le (hagree : ViewsAgree declaration)
    (honce : WritesOnce declaration t.WithinBounds)
    {cell : SubstateKey → ℕ} {entry : EntryKey → ℕ} {weight : EffectTarget → ℕ}
    (hcell : ∀ key, cell key ≤ weight (.point key))
    (hentry : ∀ key target, (∀ cell, target ≠ .point cell) →
      t.entryBytes key ≤ declaration.set.widthOf target → entry key ≤ weight target) :
    t.leavesWeighed cell entry ≤ declaration.set.weighed weight := by
  have hcells : t.writtenCells.Nodup := nodup_dedup _
  have hkeys : t.writtenEntries.Nodup := ExtTreeMap.nodup_keys
  have htargets : declaration.set.writtenTargets.Nodup := ExtTreeMap.nodup_keys.filter _
  have howned : ∀ leaf ∈ t.writtenCells.toFinset.disjSum t.writtenEntries.toFinset,
      ∃ target ∈ declaration.set.writtenTargets.toFinset, leaf ∈ leavesUnder declaration t target ∧
        Sum.elim cell entry leaf ≤ weight target := by
    rintro (key | key) hleaf
    · have hkey := mem_toFinset.mp (Finset.inl_mem_disjSum.mp hleaf)
      exact ⟨.point key, mem_toFinset.mpr (h.cell_under htabled hagree hkey),
        Finset.mem_singleton_self _, hcell key⟩
    · have hkey := mem_toFinset.mp (Finset.inr_mem_disjSum.mp hleaf)
      obtain ⟨target, htarget, hunder, hpoint, hwidth⟩ := h.entry_under htabled hagree hkey
      exact ⟨target, mem_toFinset.mpr htarget, hunder, hentry key target hpoint hwidth⟩
  calc t.leavesWeighed cell entry
      = ∑ leaf ∈ t.writtenCells.toFinset.disjSum t.writtenEntries.toFinset,
          Sum.elim cell entry leaf := by
        rw [Finset.sum_disjSum, sum_toFinset _ hcells, sum_toFinset _ hkeys]
        rfl
    _ ≤ ∑ target ∈ declaration.set.writtenTargets.toFinset,
          (leavesUnder declaration t target).card * weight target := Library.sum_le_of_owned howned
    _ ≤ ∑ target ∈ declaration.set.writtenTargets.toFinset, target.leavesWritten * weight target :=
        Finset.sum_le_sum fun target _ =>
          Nat.mul_le_mul_right _ (card_leavesUnder h htabled honce target)
    _ = declaration.set.weighed weight := sum_toFinset _ htargets

end

section Given
variable {s : Session} (hentries : store.active.entries = ∅)
  (hopen : materializeWithin store declaration tx env codec judges = .ok s) (g : Given)
include hentries hopen

theorem EntriesCharged.given : EntriesCharged (s.given g) := by
  obtain ⟨hopened, -, -, -, hactive, -⟩ := materializeWithin_ok hopen
  have hnone : (s.given g).store.active.entries = ∅ := by
    change s.store.active.entries = ∅
    rw [hactive]
    exact hentries
  refine ⟨by simp [hnone], fun rep held interval _ _ => ?_⟩
  have hwritten : (s.given g).ranges.written rep = ∅ := by
    rw [hopened]
    rfl
  rw [hwritten]
  exact Nat.zero_le _

theorem Budgeted.given (hcells : store.active.cells = ∅)
    (hqueue : store.active.pendingDeltas = ∅) : Budgeted (s.given g) := by
  obtain ⟨hopened, -, -, -, hactive, -⟩ := materializeWithin_ok hopen
  have htaken : s.taken = ∅ := by rw [hopened]; rfl
  have hbooks : s.store.active.cells = ∅ ∧ s.store.active.pendingDeltas = ∅ := by
    rw [hactive]
    exact ⟨hcells, hqueue⟩
  have hgiven : (s.given g).store = s.store ∧ (s.given g).taken = s.taken := ⟨rfl, rfl⟩
  refine ⟨EntriesCharged.given hentries hopen g, ?_, ?_, ?_⟩
  all_goals
    intro _
    simp [hgiven, hbooks, htaken]

end Given

/-- Where no two accesses write one range, nor one entry unless over a stored base, every moved
cell is as wide as an amount and every sealed one as a seal, the leaves a run has written are
within what the set was priced from, at every point of the run. -/
theorem writes_within_price {s t : Session} {ops : List SessionOp}
    (hagree : ViewsAgree declaration) (hcells : store.active.cells = ∅)
    (hentries : store.active.entries = ∅) (hqueue : store.active.pendingDeltas = ∅)
    (hopen : materializeWithin store declaration tx env codec judges = .ok s) (g : Given)
    (hrun : (s.given g).run ops = .ok t)
    (honce : WritesOnce declaration (∃ m : MemoryStore, store.base = m.toBaseline))
    (hamounts : ∀ access ∈ declaration.ordered, access.holds.isSome = true →
      access.effect.mode ≠ .read → ∀ key, access.effect.target = .point key →
        AMOUNT_CELL_BYTES ≤ declaration.set.widthOf (.point key))
    (hseals : ∀ key ∈ (s.given g).sealedCells ops, 9 ≤ declaration.set.widthOf (.point key)) :
    t.writtenEntries.length ≤ declaration.set.entriesPriced ∧
      t.bytesWritten ≤ declaration.set.bytesPriced ∧
      saturated t.bytesKept ≤ declaration.set.retainedBytes ∧
      saturated t.writeCost ≤ declaration.set.writeBytes := by
  have hopens := materializeWithin_ok hopen
  have hdeclared : s.declared = declaration.set := by rw [hopens.opened]; rfl
  have hbudgeted : Budgeted t := by
    refine (Budgeted.given hentries hopen g hcells hqueue).run hrun fun key hkey => ?_
    have hlen : (Session.sealBytes s.env.epoch).length = 9 := by
      simp [Session.sealBytes, length_leBytes]
    change (Session.sealBytes s.env.epoch).length ≤ s.declared.widthOf (.point key)
    rw [hlen, hdeclared]
    exact hseals key hkey
  have hsetting : t.setting = (s.given g).setting := Session.run_setting hrun
  have htabled : Tabled declaration t.setting := hsetting ▸ hopens.tabled.given g
  have hdeclared' : t.declared = declaration.set :=
    (congrArg Setting.declared hsetting).trans hdeclared
  have hcell := hbudgeted.cellBytes_le htabled hdeclared' hamounts
  have hbounds : (∃ m : MemoryStore, store.base = m.toBaseline) → t.WithinBounds := by
    rintro ⟨m, hbase⟩
    exact (Session.run_induction (P := Session.Sound m) (fun _ _ _ _ _ hstep hs => hs.step hstep)
      hrun (.given hbase hopen g)).inside
  have honce : WritesOnce declaration t.WithinBounds := honce.imp id (And.imp_left hbounds)
  refine ⟨?_, ?_, ?_, ?_⟩
  · have hcount : t.writtenEntries.length = t.leavesWeighed (fun _ => 0) fun _ => 1 := by
      simp [Session.leavesWeighed]
    rw [hcount]
    refine hbudgeted.weighed_le htabled hagree honce (fun _ => Nat.zero_le _) ?_
    intro key target hpoint _
    cases target with
    | point cell => exact absurd rfl (hpoint cell)
    | _ => exact le_refl 1
  · exact hbudgeted.weighed_le htabled hagree honce hcell fun _ _ _ hwidth => hwidth
  · rw [EffectSet.retainedBytes_eq]
    refine min_le_min_right _ (hbudgeted.weighed_le htabled hagree honce hcell ?_)
    intro key target hpoint hwidth
    cases target with
    | point cell => exact absurd rfl (hpoint cell)
    | _ => exact Nat.add_le_add_left hwidth _
  · rw [EffectSet.writeBytes_eq]
    refine min_le_min_right _ (hbudgeted.weighed_le htabled hagree honce
      (fun key => Nat.add_le_add_left (hcell key) _) ?_)
    intro key target hpoint hwidth
    cases target with
    | point cell => exact absurd rfl (hpoint cell)
    | _ => exact Nat.add_le_add_left (Nat.add_le_add_left hwidth _) _

def clauseAt (width : ℕ) (access : DeclaredAccess) : Declaration :=
  { declaring [] with
    set := ((EffectSet.new.insertBounded access.effect width).map Prod.fst).getD .new
    ordered := [access] }

def unionOf (frames : List Declaration) : Except Admission.AdmissionError Declaration :=
  frames.foldlM (fun union frame => Admission.foldUnion frame union) (declaring [])

def Spends (declaration : Declaration) (ops : List SessionOp) (t : Session) : Prop :=
  ∃ s, opensOver .new declaration = .ok s ∧ (s.given .plain).run ops = .ok t

theorem spends_of_passes (frames : List Declaration) (ops : List SessionOp)
    (told : Declaration → Session → Bool)
    (h : passes (unionOf frames) (fun d => decide (ViewsAgree d) &&
      passes (opensOver .new d)
        fun s => passes ((s.given .plain).run ops) (told d)) = true) :
    ∃ d t, unionOf frames = .ok d ∧ ViewsAgree d ∧ Spends d ops t ∧ told d t = true := by
  obtain ⟨d, hd, hrest⟩ := passes_iff.mp h
  obtain ⟨hagree, hopens⟩ := and_eq_true_iff.mp hrest
  obtain ⟨s, hs, hruns⟩ := passes_iff.mp hopens
  obtain ⟨t, ht, htold⟩ := passes_iff.mp hruns
  exact ⟨d, t, hd, of_decide_eq_true hagree, ⟨s, hs, ht⟩, htold⟩

def ballots : Address := ⟨1, .component⟩

def coinage : ResourceAddr := .numbered 7

def ballot : DeclaredAccess := ⟨⟨.range ballots 0 0 100 1, .write .both⟩, none, none, none⟩

def tally : DeclaredAccess := ⟨⟨.point ⟨ballots, 1⟩, .write .both⟩, none, none, none⟩

def till : DeclaredAccess := ⟨⟨.point ⟨ballots, 2⟩, .delta .both⟩, some coinage, none, none⟩

def castTwice : List SessionOp := [.rangeInsert 0 0 3 [1], .rangeInsert 1 0 5 [1]]

/-- Two clauses of one range are priced as one and each has the whole cap; a seal and an
amount are written whatever the width of the cell. -/
theorem writes_past_price :
    (∃ d t, unionOf [clauseAt 1 ballot, clauseAt 1 ballot] = .ok d ∧ ViewsAgree d ∧
      Spends d castTwice t ∧ d.set.entriesPriced = 1 ∧ t.writtenEntries.length = 2 ∧
      d.set.bytesPriced = 1 ∧ t.bytesWritten = 2 ∧ d.set.retainedBytes < t.bytesKept) ∧
    (∃ d t, unionOf [clauseAt 8 tally] = .ok d ∧ ViewsAgree d ∧ Spends d [.sealCell 0 0] t ∧
      d.set.bytesPriced = 8 ∧ t.bytesWritten = 9) ∧
    ∃ d t, unionOf [clauseAt 8 till] = .ok d ∧ ViewsAgree d ∧ Spends d [.cellTake 0 0 5] t ∧
      d.set.bytesPriced = 8 ∧ t.bytesWritten = 16 := by
  refine ⟨?_, ?_, ?_⟩
  · obtain ⟨d, t, hd, hagree, hspends, htold⟩ := spends_of_passes
      [clauseAt 1 ballot, clauseAt 1 ballot] castTwice (fun d t =>
        d.set.entriesPriced = 1 ∧ t.writtenEntries.length = 2 ∧ d.set.bytesPriced = 1 ∧
          t.bytesWritten = 2 ∧ d.set.retainedBytes < t.bytesKept) (by decide +kernel)
    exact ⟨d, t, hd, hagree, hspends, of_decide_eq_true htold⟩
  · obtain ⟨d, t, hd, hagree, hspends, htold⟩ := spends_of_passes [clauseAt 8 tally]
      [.sealCell 0 0] (fun d t => d.set.bytesPriced = 8 ∧ t.bytesWritten = 9) (by decide +kernel)
    exact ⟨d, t, hd, hagree, hspends, of_decide_eq_true htold⟩
  · obtain ⟨d, t, hd, hagree, hspends, htold⟩ := spends_of_passes [clauseAt 8 till]
      [.cellTake 0 0 5] (fun d t => d.set.bytesPriced = 8 ∧ t.bytesWritten = 16) (by decide +kernel)
    exact ⟨d, t, hd, hagree, hspends, of_decide_eq_true htold⟩

def slip : DeclaredAccess := ⟨⟨.entry ballots 1 4, .write .both⟩, none, none, none⟩

def castOnce : List SessionOp :=
  [.rangeInsert 0 0 3 [1], .sealCell 1 0, .cellTake 2 0 5, .rangeInsert 3 0 4 [1],
    .rangeInsert 4 0 4 [2]]

def castFrames : List Declaration :=
  [clauseAt 1 ballot, clauseAt 9 tally, clauseAt 16 till, clauseAt 1 slip, clauseAt 1 slip]

theorem ballot_within_price :
    ∃ d s t, unionOf castFrames = .ok d ∧ opensOver .new d = .ok s ∧
      (s.given .plain).run castOnce = .ok t ∧
      t.writtenEntries.length = 2 ∧ t.bytesWritten = 27 ∧
      t.writtenEntries.length ≤ d.set.entriesPriced ∧ t.bytesWritten ≤ d.set.bytesPriced ∧
      saturated t.bytesKept ≤ d.set.retainedBytes ∧ saturated t.writeCost ≤ d.set.writeBytes := by
  have hruns : passes (unionOf castFrames) (fun d =>
      decide (ViewsAgree d ∧ (d.ordered.filterMap writtenRange).Nodup) &&
      (d.ordered.all fun access =>
        !access.holds.isSome || AMOUNT_CELL_BYTES ≤ d.set.widthOf access.effect.target) &&
      passes (opensOver .new d)
        fun s => decide (∀ key ∈ (s.given .plain).sealedCells castOnce,
          9 ≤ d.set.widthOf (.point key)) &&
        passes ((s.given .plain).run castOnce) fun t =>
          t.writtenEntries.length = 2 ∧ t.bytesWritten = 27) = true := by
    decide +kernel
  obtain ⟨d, hd, hrest⟩ := passes_iff.mp hruns
  obtain ⟨hdeclared, hrest⟩ := and_eq_true_iff.mp hrest
  obtain ⟨hviews, hamounts⟩ := and_eq_true_iff.mp hdeclared
  obtain ⟨hagree, honce⟩ := of_decide_eq_true hviews
  obtain ⟨s, hopen, hrest⟩ := passes_iff.mp hrest
  obtain ⟨hseals, hrest⟩ := and_eq_true_iff.mp hrest
  obtain ⟨t, hrun, htold⟩ := passes_iff.mp hrest
  obtain ⟨hentries, hbytes⟩ := of_decide_eq_true htold
  refine ⟨d, s, t, hd, hopen, hrun, hentries, hbytes,
    writes_within_price hagree rfl rfl rfl hopen _ hrun (.inr ⟨⟨.new, rfl⟩, honce⟩) ?_
      (of_decide_eq_true hseals)⟩
  intro access haccess hholds _ key htarget
  have hwide := all_eq_true.mp hamounts access haccess
  rw [htarget] at hwide
  simpa [hholds] using hwide

/-- At every point of a run, whatever it calls and in whatever order, every entry it has written
is charged to a capability over its collection, none past its cap. -/
theorem runs_stay_within_caps {s t : Session} {ops : List SessionOp}
    (hentries : store.active.entries = ∅)
    (hopen : materializeWithin store declaration tx env codec judges = .ok s) (g : Given)
    (hrun : (s.given g).run ops = .ok t) : EntriesCharged t :=
  Session.run_induction (fun _ _ _ _ _ hstep hs => hs.step hstep) hrun
    (EntriesCharged.given hentries hopen g)

theorem ballots_stay_within_caps : ∃ d t,
    unionOf [clauseAt 1 ballot, clauseAt 1 ballot] = .ok d ∧ Spends d castTwice t ∧
      t.writtenEntries.length = 2 ∧ EntriesCharged t := by
  obtain ⟨d, t, hd, -, ⟨s, hopen, hrun⟩, htold⟩ := spends_of_passes
    [clauseAt 1 ballot, clauseAt 1 ballot] castTwice
    (fun _ t => t.writtenEntries.length = 2) (by decide +kernel)
  exact ⟨d, t, hd, ⟨s, hopen, hrun⟩, of_decide_eq_true htold,
    runs_stay_within_caps rfl hopen _ hrun⟩

end HyperscaleVm.Kernel

import HyperscaleVm.Kernel.Session.Completed

/-!
# No access escapes the declaration

Every entry of a session's log is what a condition asked of a declared target, what
a capability of the table stands for, or the kernel's own marker; each is covered
by the declared set, so finishing never finds an access that is not.
-/

namespace HyperscaleVm.Kernel
open Effects List Library
open Std (ExtTreeMap)

variable {set : EffectSet} {target : EffectTarget} {access : Access} {kind : ModeKind}

theorem covered_of_declares (h : set.declares target kind)
    (htarget : targetCovers target access.target = true) (hkind : permits kind access.kind = true ∨
      (∃ key, target = .point key) ∧ kind = .write ∧ access.kind = .delta) :
    covered access set = true := by
  obtain ⟨declared, hfound, mode, hmode, rfl⟩ := h
  have hmem : (⟨target, mode⟩ : Effect) ∈ set.iter := by
    refine EffectSet.mem_iter.mpr ?_
    simpa [EffectSet.contains, hfound] using hmode
  refine any_eq_true.mpr ⟨_, hmem, ?_⟩
  rcases hkind with hpermits | ⟨⟨key, rfl⟩, hwrite, hdelta⟩
  · simp [htarget, hpermits]
  · simp [htarget, exclusiveMovement, hwrite, hdelta]

variable {width : ℕ} {interval : Interval}

theorem covered_interval (h : set.declares target kind)
    (hof : intervalOf target width = some interval) (hread : permits kind .read = true)
    (hreads : interval.Reads access) : covered access set = true := by
  obtain ⟨lo, hi, cap, rfl, hcap, hspan⟩ := hreads
  refine covered_of_declares h ?_ (.inl hread)
  cases target with
  | point key => cases hof
  | entry owner collection order =>
    cases hof
    have hat : lo = order ∧ hi = order := by
      dsimp only at hspan
      omega
    simp [targetCovers, hat.1, hat.2, hcap]
  | range owner collection lo' hi' cap' =>
    cases hof
    have hin : lo' ≤ lo ∧ hi ≤ hi' := by
      dsimp only at hspan
      omega
    simp [targetCovers, hin.1, hin.2, hcap]

theorem covered_entry (h : set.declares target .write)
    (hof : intervalOf target width = some interval) (hwrites : interval.Writes access) :
    covered access set = true := by
  obtain ⟨order, rfl, hlo, hhi⟩ := hwrites
  refine covered_of_declares h ?_ (.inl rfl)
  cases target with
  | point key => cases hof
  | entry owner collection order' =>
    cases hof
    have hat : order' = order := Nat.le_antisymm hlo hhi
    simp [targetCovers, hat]
  | range owner collection lo hi cap =>
    cases hof
    simp [targetCovers, hlo, hhi]

variable {store : OverlayStore} {declaration : Declaration} {tx : TxHash} {env : EnvInputs}
  {codec : Codec} {judges : OwnerSet}

theorem covered_of_admits {s : Session}
    (htabled : Tabled declaration s.setting) (hagree : ViewsAgree declaration)
    (h : s.Admits access) : covered access declaration.set = true := by
  obtain ⟨rep, held, htable, hadmits⟩ := h
  obtain ⟨declared, hordered, -, hcapability⟩ := htabled.access htable
  have hdeclares := hagree.declares (mem_of_getElem? hordered)
  cases hcapability with
  | read target mode | amountRead target mode =>
    obtain rfl := hadmits
    rw [target, mode] at hdeclares
    exact covered_of_declares hdeclares (by simp [targetCovers]) (.inl rfl)
  | write target mode =>
    rw [target, mode] at hdeclares
    rcases hadmits with rfl | rfl <;>
      exact covered_of_declares hdeclares (by simp [targetCovers]) (.inl rfl)
  | amount target mode =>
    rw [target, mode] at hdeclares
    rcases hadmits with rfl | rfl
    · exact covered_of_declares hdeclares (by simp [targetCovers]) (.inl rfl)
    · exact covered_of_declares hdeclares (by simp [targetCovers]) (.inr ⟨⟨_, rfl⟩, rfl, rfl⟩)
  | delta target mode =>
    obtain rfl := hadmits
    rw [target, mode] at hdeclares
    exact covered_of_declares hdeclares (by simp [targetCovers]) (.inl rfl)
  | reserve target mode => exact hadmits.elim
  | rangeRead target mode =>
    rw [mode] at hdeclares
    exact covered_interval hdeclares target rfl hadmits
  | rangeWrite target mode | instances target mode =>
    rw [mode] at hdeclares
    exact hadmits.elim (covered_interval hdeclares target rfl) (covered_entry hdeclares target)

def SessionOp.marker : SessionOp → Option SubstateKey
  | .escrowOut _ _ _ departure => some departure.record
  | .escrowIn arrival => some arrival.claim
  | _ => none

namespace Session

variable {s t : Session}

theorem Names.append {site element rep : ℕ} {more : List (ℕ × ℕ)} {bound : List (Option ℕ)}
    (h : s.Names site element rep) (hsites : t.sites = s.sites ++ more)
    (hentries : t.entries = s.entries ++ bound) : t.Names site element rep := by
  obtain ⟨start, len, hsite, hlt, hentry⟩ := h
  refine ⟨start, len, ?_, hlt, ?_⟩
  · rw [hsites]
    exact List.getElem?_append_left (List.getElem?_eq_some_iff.mp hsite).1 ▸ hsite
  · rw [hentries]
    exact List.getElem?_append_left (List.getElem?_eq_some_iff.mp hentry).1 ▸ hentry

variable {m : MemoryStore} {op : SessionOp} {a : OpAnswer}

theorem step_trail (hsound : s.Sound m) (h : s.step op = .ok (t, a)) :
    (∀ access ∈ t.store.log, access ∈ s.store.log ∨ s.Admits access ∨
      ∃ target, op.gateTarget = some target ∧ access ∈ occupiedAccesses target) ∧ t.Paged := by
  have hgate : ∀ {target : EffectTarget} {access : Access},
      access ∈ s.store.log ++ occupiedAccesses target → access ∈ s.store.log ∨ s.Admits access ∨
        ∃ found, some target = some found ∧ access ∈ occupiedAccesses found := by
    intro target access haccess
    exact (mem_append.mp haccess).imp id fun hmem => .inr ⟨target, rfl, hmem⟩
  cases hlends : op.lends with
  | true =>
    cases SessionOp.lends_of hlends <;> cases h <;> refine ⟨fun access haccess => .inl haccess, ?_⟩
    · exact (Follows.same rfl rfl rfl rfl rfl).paged hsound.paged
    · exact (Follows.same rfl rfl rfl rfl rfl).paged hsound.paged
    · intro site element page hpage
      obtain ⟨rep, held, interval, hnames, htable, hof, hinside⟩ := hsound.paged hpage
      exact ⟨rep, held, interval, hnames.append rfl rfl, htable, hof, hinside⟩
    · exact (Follows.same rfl rfl rfl rfl rfl).paged hsound.paged
    · exact (Follows.same rfl rfl rfl rfl rfl).paged hsound.paged
  | false =>
    cases op with
    | declaredCell key =>
      cases h
      exact ⟨fun access haccess => hgate haccess, hsound.paged⟩
    | declaredPresent target =>
      obtain ⟨found, h⟩ := of_map_answer h
      obtain ⟨⟨store, found'⟩, hoccupied, h⟩ := bind_ok.mp h
      cases h
      obtain rfl := occupied_ok (mapError_ok.mp hoccupied)
      exact ⟨fun access haccess => hgate haccess, hsound.paged⟩
    | _ =>
      have hfollows := (step_leaves h hlends).follows rfl hsound
      exact ⟨fun access haccess => (hfollows.log access haccess).imp id .inl,
        hfollows.paged hsound.paged⟩

theorem Sound.step (h : s.Sound m) (hstep : s.step op = .ok (t, a)) : t.Sound m := by
  have hbase : t.store.base = s.store.base :=
    congrArg Setting.base (step_does hstep).choose_spec.2.2.2
  exact ⟨hbase.trans h.base, (step_trail h hstep).2, h.within.step hstep, h.bounds_step hstep⟩

theorem Sound.given (hbase : store.base = m.toBaseline)
    (h : materializeWithin store declaration tx env codec judges = .ok s) (g : Given) :
    (s.given g).Sound m := by
  have hopens := materializeWithin_ok h
  have hranges : (s.given g).ranges = .new := by rw [hopens.opened]; rfl
  refine ⟨hopens.base.trans hbase, ?_, ?_, ?_⟩
  · intro site element page hpage
    rw [hranges] at hpage
    cases hpage
  · intro rep held interval _ _
    rw [hranges]
    exact Nat.zero_le _
  · intro rep held interval _ _ order horder
    rw [hranges] at horder
    cases horder

end Session

def leafTarget : JudgedLeaf → Option EffectTarget
  | .presence target _ => some target
  | .signed cell _ => some (.point cell)
  | .claim _ | .stored _ => none

/-- A declaration that declares what its conditions and its gates ask of, and the kernel cells
its intents and its crossings write. -/
structure NamesDeclared (declaration : Declaration) (nullifiers : List IntentRecord)
    (ops : List SessionOp) : Prop where
  conditions : ∀ condition ∈ declaration.conditions, ∀ leaf ∈ condition.rule.leaves, ∀ target,
    leafTarget leaf = some target →
      declaration.set.declares target .read ∨ declaration.set.declares target .write
  gates : ∀ op ∈ ops, ∀ target, op.gateTarget = some target →
    declaration.set.declares target .read ∨ declaration.set.declares target .write
  crossings : ∀ op ∈ ops, ∀ key, op.marker = some key → declaration.set.declares (.point key) .write
  nullifiers : ∀ record ∈ nullifiers, ∀ key ∈ record.nullifiers,
    declaration.set.declares (.point key) .write

/-- What holds of the log, and of what the next operation reads it through, along a run. -/
structure Tracked (m : MemoryStore) (declaration : Declaration) (s : Session) : Prop where
  sound : s.Sound m
  tabled : Tabled declaration s.setting
  log : ∀ access ∈ s.store.log, covered access declaration.set = true
  crossings : ∀ key ∈ s.crossings, declaration.set.declares (.point key) .write

section

variable {m : MemoryStore} {s t : Session}

theorem mem_asks {leaf : JudgedLeaf} {access : Access} (h : access ∈ asks leaf) :
    ∃ target, leafTarget leaf = some target ∧ access ∈ occupiedAccesses target := by
  cases leaf with
  | presence target expect => exact ⟨target, rfl, h⟩
  | signed cell keys => exact ⟨.point cell, rfl, h⟩
  | claim | stored => cases h

variable {op : SessionOp} {a : OpAnswer}

theorem mem_crossings_step (hstep : s.step op = .ok (t, a))
    {key : SubstateKey} (hkey : key ∈ t.crossings) : key ∈ s.crossings ∨ op.marker = some key := by
  obtain ⟨deed, -, hfits, hbooks, -⟩ := Session.step_does hstep
  have hcrossings : t.crossings = (deed.apply s.books).crossings := congrArg Books.crossings hbooks
  rw [hcrossings] at hkey
  have hplain : deed.Plain → key ∈ s.crossings := by
    intro hplain
    cases deed <;> first | exact hkey | cases hplain
  cases op with
  | escrowOut node output funds departure =>
    obtain ⟨crossed, value, escrow, rfl⟩ := hfits
    change key ∈ s.crossings.insert departure.record value at hkey
    rw [ExtTreeMap.mem_insert, Std.compare_eq_iff_eq] at hkey
    exact hkey.symm.imp id (congrArg some)
  | escrowIn arrival =>
    obtain ⟨value, escrow, rfl⟩ := hfits
    change key ∈ s.crossings.insert arrival.claim value at hkey
    rw [ExtTreeMap.mem_insert, Std.compare_eq_iff_eq] at hkey
    exact hkey.symm.imp id (congrArg some)
  | mint grant amount =>
    obtain ⟨resource, supply, rfl⟩ := hfits
    exact .inl hkey
  | mintInstances grant ids =>
    obtain ⟨resource, supply, -, rfl⟩ := hfits
    exact .inl hkey
  | burn funds =>
    obtain ⟨supply, rfl⟩ := hfits
    exact .inl hkey
  | _ => exact .inl (hplain hfits)

theorem Tracked.step (h : Tracked m declaration s) (hagree : ViewsAgree declaration)
    (hgate : ∀ target, op.gateTarget = some target →
      declaration.set.declares target .read ∨ declaration.set.declares target .write)
    (hmarker : ∀ key, op.marker = some key → declaration.set.declares (.point key) .write)
    (hstep : s.step op = .ok (t, a)) : Tracked m declaration t := by
  have hsetting : t.setting = s.setting := (Session.step_does hstep).choose_spec.2.2.2
  constructor
  case sound => exact h.sound.step hstep
  case tabled => exact hsetting ▸ h.tabled
  case log =>
    intro access haccess
    rcases (Session.step_trail h.sound hstep).1 access haccess with
      hold | hadmits | ⟨target, htarget, hasked⟩
    · exact h.log access hold
    · exact covered_of_admits h.tabled hagree hadmits
    · exact covered_occupied (hgate target htarget) hasked
  case crossings =>
    intro key hkey
    exact (mem_crossings_step hstep hkey).elim (h.crossings key) (hmarker key)

variable {ops : List SessionOp} {nullifiers : List IntentRecord}

theorem Tracked.run (h : Tracked m declaration s) (hagree : ViewsAgree declaration)
    (hnames : NamesDeclared declaration nullifiers ops) (hrun : s.run ops = .ok t) :
    Tracked m declaration t :=
  Session.run_induction (P := Tracked m declaration) (fun _ _ op _ hop hstep h =>
    h.step hagree (hnames.gates op hop) (hnames.crossings op hop) hstep) hrun h

theorem Tracked.given
    (hbase : store.base = m.toBaseline) (hnames : NamesDeclared declaration nullifiers ops)
    (h : materializeWithin store declaration tx env codec judges = .ok s) (g : Given) :
    Tracked m declaration (s.given g) := by
  have hopens := materializeWithin_ok h
  have hcrossings : s.crossings = ∅ := by rw [hopens.opened]; rfl
  constructor
  case sound => exact .given hbase h g
  case tabled => exact hopens.tabled.given g
  case log =>
    intro access haccess
    rcases hopens.log access haccess with ⟨condition, hcondition, leaf, hleaf, hasked⟩ |
      ⟨⟨key, amount⟩, hreserved, rfl⟩
    · obtain ⟨target, htarget, hasked⟩ := mem_asks hasked
      exact covered_occupied (hnames.conditions condition hcondition leaf hleaf target htarget)
        hasked
    obtain ⟨effect, heffect, hsome⟩ := mem_filterMap.mp hreserved
    refine any_eq_true.mpr ⟨effect, heffect, ?_⟩
    split at hsome
    · rename_i htarget hmode
      cases hsome
      simp [htarget, hmode, targetCovers, permits, Mode.kind]
    · cases hsome
  case crossings =>
    intro key hkey
    change key ∈ s.crossings at hkey
    rw [hcrossings] at hkey
    simp at hkey

end

namespace Session

variable {s t : Session}

structure Unlogged (s t : Session) : Prop where
  log : t.store.log = s.store.log
  declared : t.declared = s.declared
  crossings : t.crossings = s.crossings
  nullifiers : t.nullifiers = s.nullifiers

theorem Unlogged.refl (s : Session) : Unlogged s s := ⟨rfl, rfl, rfl, rfl⟩

theorem Unlogged.trans {u : Session} (h : Unlogged s t) (h' : Unlogged t u) : Unlogged s u :=
  ⟨h'.log.trans h.log, h'.declared.trans h.declared, h'.crossings.trans h.crossings,
    h'.nullifiers.trans h.nullifiers⟩

theorem commitDeltas_log {o o' : OverlayStore} {applied : List AppliedDelta}
    (h : commitDeltas o = .ok (o', applied)) : o'.log = o.log := by
  obtain ⟨folded, -, h⟩ := bind_ok.mp h
  cases h
  have hfold : ∀ (outcomes : List AppliedDelta) (o : OverlayStore),
      (outcomes.foldl (fun o outcome => AmountLedger.setAmount o outcome.key outcome.after) o).log =
        o.log := by
    intro outcomes
    induction outcomes with
    | nil => exact fun _ => rfl
    | cons outcome outcomes ih => exact fun o => ih (o.setAmount outcome.key outcome.after)
  exact hfold applied o

theorem withholdRaised_log (s : Session) (movements : List (SubstateKey × Movement))
    (o : OverlayStore) : (movements.foldl s.withholdRaised o).log = o.log := by
  induction movements generalizing o with
  | nil => rfl
  | cons p movements ih =>
    rw [foldl_cons, ih]
    unfold withholdRaised
    split <;> rfl

variable {movements : ExtTreeMap SubstateKey Movement}

theorem judgeMovements_unlogged (h : s.judgeMovements = .ok (t, movements)) : Unlogged s t := by
  obtain ⟨-, -, folded, applied, hfolded, rfl⟩ := judgeMovements_ok h
  have hlog : folded.log = (s.store.retainPendingDeltas fun key => s.applies key.owner).log :=
    commitDeltas_log hfolded
  refine ⟨?_, rfl, rfl, rfl⟩
  dsimp only
  split
  · exact (withholdRaised_log s _ _).trans hlog
  · exact hlog

theorem settleReservations_unlogged {settles : ExtTreeMap SubstateKey Movement}
    (h : s.settleReservations = .ok (t, settles)) : Unlogged s t := by
  have hfold : ∀ (keys : List SubstateKey) (u : Session) (sofar : ExtTreeMap SubstateKey Movement),
      keys.foldlM settleReservation (u, sofar) = .ok (t, settles) → Unlogged u t := by
    intro keys
    induction keys with
    | nil =>
      intro u sofar h
      cases h
      exact .refl _
    | cons key keys ih =>
      intro u sofar h
      rw [foldlM_cons] at h
      obtain ⟨⟨v, next⟩, hfirst, h⟩ := bind_ok.mp h
      refine Unlogged.trans ?_ (ih v next h)
      rcases settleReservation_ok hfirst with ⟨-, rfl, -⟩ |
        ⟨resource, taken, store, settled, -, -, -, hdisposed, rfl, -⟩
      · exact .refl _
      · refine ⟨?_, rfl, rfl, rfl⟩
        cases hdisposed <;> rfl
  exact hfold _ s ∅ h

theorem burnFee_unlogged {movements' : ExtTreeMap SubstateKey Movement}
    (h : s.burnFee movements = .ok (t, movements')) : Unlogged s t := by
  unfold burnFee at h
  split at h
  · cases h
    exact .refl _
  dsimp only at h
  split at h
  · cases h
    exact ⟨rfl, rfl, rfl, rfl⟩
  obtain ⟨⟨store, after⟩, happlied, composed, -, h⟩ := binds_ok.mp h
  obtain ⟨supply, -, h⟩ := bind_ok.mp h
  cases h
  obtain ⟨-, rfl⟩ := applyMovement_ok.mp (mapError_ok.mp happlied)
  exact ⟨rfl, rfl, rfl, rfl⟩

theorem writeKernelCells_log {access : Access} (h : access ∈ s.writeKernelCells.store.log) :
    access ∈ s.store.log ∨ ∃ p ∈ s.kernelCells, access = ⟨.point p.1, .write⟩ := by
  have hfold : ∀ (cells : List (SubstateKey × Bytes)) (o : OverlayStore),
      access ∈ (cells.foldl (fun store p =>
        if s.applies p.1.owner then store.write p.1 p.2 else store) o).log →
      access ∈ o.log ∨ ∃ p ∈ cells, access = ⟨.point p.1, .write⟩ := by
    intro cells
    induction cells with
    | nil => exact fun _ h => .inl h
    | cons p cells ih =>
      intro o h
      rcases ih _ h with hin | ⟨q, hq, rfl⟩
      · dsimp only at hin
        split at hin
        · rcases mem_append.mp hin with hin | hin
          · exact .inl hin
          · exact .inr ⟨p, mem_cons_self, mem_singleton.mp hin⟩
        · exact .inl hin
      · exact .inr ⟨q, mem_cons_of_mem _ hq, rfl⟩
  exact hfold _ _ h

def Marks (s : Session) (key : SubstateKey) : Prop :=
  (∃ record ∈ s.nullifiers, key ∈ record.nullifiers) ∨ key ∈ s.crossings

theorem mem_kernelCells {p : SubstateKey × Bytes} (h : p ∈ s.kernelCells) : s.Marks p.1 := by
  rcases mem_append.mp h with h | h
  · obtain ⟨record, hrecord, h⟩ := mem_flatMap.mp h
    obtain ⟨key, hkey, rfl⟩ := mem_map.mp h
    exact .inl ⟨record, hrecord, hkey⟩
  · refine .inr ?_
    rw [ExtTreeMap.mem_iff_isSome_getElem?, mem_toList.mp h]
    rfl

theorem accounts_confined (hlog : ∀ access ∈ s.store.log, covered access s.declared = true)
    (hcells : ∀ key, s.Marks key → s.declared.declares (.point key) .write) :
    Refuses Stop.Ordinary s.accounts := by
  refine accounts_refuses (fun _ h => h) ?_
  intro s₁ moved s₂ settles s₃ movements hmoved hsettled hburned hsome
  refine absurd (filter_eq_nil_iff.mpr fun access haccess => ?_) hsome
  have hkept : Unlogged s s₃ := ((judgeMovements_unlogged hmoved).trans
    (settleReservations_unlogged hsettled)).trans (burnFee_unlogged hburned)
  have hdeclared : s₃.writeKernelCells.declared = s.declared := hkept.declared
  rw [hdeclared]
  suffices hcovered : covered access s.declared = true by simp [hcovered]
  rcases writeKernelCells_log haccess with hold | ⟨p, hp, rfl⟩
  · exact hlog access (hkept.log ▸ hold)
  · refine covered_of_declares (hcells p.1 ?_) (by simp [targetCovers]) (.inl rfl)
    rcases mem_kernelCells hp with ⟨record, hrecord, hkey⟩ | hcrossing
    · exact .inl ⟨record, hkept.nullifiers ▸ hrecord, hkey⟩
    · exact .inr (hkept.crossings ▸ hcrossing)

theorem finish_confined (hlog : ∀ access ∈ s.store.log, covered access s.declared = true)
    (hcells : ∀ key, s.Marks key → s.declared.declares (.point key) .write) (answers : List Answer)
    (fuelByNode : List ℕ) (escaped : List Access) :
    s.finish answers fuelByNode ≠ .error (.undeclared escaped) := by
  have hbalanced : Refuses Stop.Ordinary s.balanced :=
    balanced_refuses (fun _ h => h) (accounts_confined hlog hcells)
  intro hfinish
  unfold finish at hfinish
  split at hfinish
  · rename_i error hstop
    cases hfinish
    exact hbalanced _ hstop escaped rfl
  · cases hfinish
  · split at hfinish <;> cases hfinish

end Session

/-- Whatever a session runs, every access it records is covered by the declared set, and so
finishing never refuses it for one that is not. -/
theorem accesses_stay_declared {m : MemoryStore} {g : Given}
    {ops : List SessionOp} {s t : Session} (hbase : store.base = m.toBaseline)
    (hagree : ViewsAgree declaration) (hnames : NamesDeclared declaration g.nullifiers ops)
    (hopen : materializeWithin store declaration tx env codec judges = .ok s)
    (hrun : (s.given g).run ops = .ok t) :
    (∀ access ∈ t.store.log, covered access declaration.set = true) ∧ ∀ answers fuelByNode escaped,
        t.finish answers fuelByNode ≠ .error (.undeclared escaped) := by
  have htracked : Tracked m declaration t :=
    (Tracked.given hbase hnames hopen g).run hagree hnames hrun
  have hsetting : t.setting = (s.given g).setting := Session.run_setting hrun
  have hdeclared : t.declared = declaration.set := by
    have hopened : s.declared = declaration.set := by rw [(materializeWithin_ok hopen).opened]; rfl
    exact (congrArg Setting.declared hsetting).trans hopened
  have hnullifiers : t.nullifiers = g.nullifiers := congrArg Setting.nullifiers hsetting
  refine ⟨htracked.log, fun answers fuelByNode escaped => ?_⟩
  refine Session.finish_confined (hdeclared ▸ htracked.log) (fun key hkey => ?_) answers fuelByNode
    escaped
  rw [hdeclared]
  rcases hkey with ⟨record, hrecord, hkey⟩ | hcrossing
  · exact hnames.nullifiers record (hnullifiers ▸ hrecord) key hkey
  · exact htracked.crossings key hcrossing

def registrar : Address := ⟨1, .component⟩

def registered : List DeclaredAccess :=
  [⟨⟨.range registrar 0 0 100 2, .write .both⟩, none, none, none⟩,
    ⟨⟨.point ⟨registrar, 1⟩, .write .both⟩, none, none, none⟩,
    ⟨⟨.point ⟨registrar, 2⟩, .write .both⟩, none, none, none⟩]

def registration : Declaration :=
  { declaring registered with
    conditions := [⟨.require (.presence (.point ⟨registrar, 1⟩) .absent), none⟩] }

def registering : Given := ⟨.whole, [⟨5, [⟨registrar, 2⟩], 60⟩], none, false⟩

def registerTwo : List SessionOp :=
  [.declaredCell ⟨registrar, 1⟩, .rangeInsert 0 0 3 [1], .rangeInsert 0 0 8 [2], .rangeCount 0 0,
    .rangeEntry 0 0 1, .writeCellSet 1 0 [9]]

theorem registration_names_declared :
    NamesDeclared registration registering.nullifiers registerTwo := by
  have hdeclared : ∀ access ∈ registered,
      registration.set.declares access.effect.target access.effect.mode.kind := by
    have hfiled :
        registered.all (fun access => registration.set.contains access.effect) = true := by
      decide +kernel
    intro access haccess
    exact EffectSet.declares_of_contains (all_eq_true.mp hfiled access haccess)
  have hnote : registration.set.declares (.point ⟨registrar, 1⟩) .write :=
    hdeclared _ (mem_cons_of_mem _ mem_cons_self)
  have hspent : registration.set.declares (.point ⟨registrar, 2⟩) .write :=
    hdeclared _ (mem_cons_of_mem _ (mem_cons_of_mem _ mem_cons_self))
  constructor
  case conditions =>
    intro condition hcondition leaf hleaf target htarget
    cases mem_singleton.mp hcondition
    cases mem_singleton.mp hleaf
    cases htarget
    exact .inr hnote
  case gates =>
    intro op hop target htarget
    simp only [registerTwo, mem_cons, not_mem_nil, or_false] at hop
    rcases hop with rfl | rfl | rfl | rfl | rfl | rfl <;> cases htarget
    exact .inr hnote
  case crossings =>
    intro op hop key hkey
    simp only [registerTwo, mem_cons, not_mem_nil, or_false] at hop
    rcases hop with rfl | rfl | rfl | rfl | rfl | rfl <;> cases hkey
  case nullifiers =>
    intro record hrecord key hkey
    cases mem_singleton.mp hrecord
    cases mem_singleton.mp hkey
    exact hspent

theorem registration_stays_declared :
    ∃ s t, opensOver .new registration = .ok s ∧ (s.given registering).run registerTwo = .ok t ∧
      t.store.log.length = 6 ∧ (∀ access ∈ t.store.log, covered access registration.set = true) ∧
      ∀ answers fuelByNode escaped, t.finish answers fuelByNode ≠ .error (.undeclared escaped) := by
  obtain ⟨s, t, hopen, hrun, hlogged⟩ := @exists_run .new registration
    registering registerTwo (fun _ t => decide (t.store.log.length = 6)) (by decide +kernel)
  exact ⟨s, t, hopen, hrun, of_decide_eq_true hlogged,
    accesses_stay_declared rfl (by decide +kernel) registration_names_declared hopen hrun⟩

end HyperscaleVm.Kernel

import HyperscaleVm.Kernel.Holding
import HyperscaleVm.Kernel.Session.InFlight

/-!
# What a session opens with
-/

namespace HyperscaleVm.Kernel
open Effects List Library
open AmountLedger (setHold note)

variable {width : ℕ}

theorem intervalOf_contents {target : EffectTarget} {interval : Interval}
    (h : intervalOf target width = some interval) :
    contentsOf target = .entries interval.owner interval.collection := by
  cases target with
  | point key => cases h
  | entry | range =>
    cases h
    rfl

inductive CapabilityOf (effect : Effect) (denominated : Bool) (width : ℕ) : Capability → Prop
  | read {key : SubstateKey} (target : effect.target = .point key) (mode : effect.mode = .read)
      (bytes : denominated = false) : CapabilityOf _ _ _ (.read key)
  | amountRead {key : SubstateKey} (target : effect.target = .point key)
      (mode : effect.mode = .read)
      (value : denominated = true) : CapabilityOf _ _ _ (.amountRead key)
  | write {key : SubstateKey} {moves : Moves} (target : effect.target = .point key)
      (mode : effect.mode = .write moves) (bytes : denominated = false) :
        CapabilityOf _ _ _ (.write key)
  | amount {key : SubstateKey} {moves : Moves} (target : effect.target = .point key)
      (mode : effect.mode = .write moves) (value : denominated = true) :
      CapabilityOf _ _ _ (.amount key moves)
  | delta {key : SubstateKey} {moves : Moves} (target : effect.target = .point key)
      (mode : effect.mode = .delta moves) (value : denominated = true) :
      CapabilityOf _ _ _ (.delta key moves)
  | reserve {key : SubstateKey} {n : ℕ} (target : effect.target = .point key)
      (mode : effect.mode = .reserve n) (value : denominated = true) :
      CapabilityOf _ _ _ (.reserve key n)
  | rangeRead {interval : Interval} (target : intervalOf effect.target width = some interval)
      (mode : effect.mode = .read) : CapabilityOf _ _ _ (.rangeRead interval)
  | rangeWrite {interval : Interval} {moves : Moves}
      (target : intervalOf effect.target width = some interval) (mode : effect.mode = .write moves)
      (bytes : denominated = false) : CapabilityOf _ _ _ (.rangeWrite interval)
  | instances {interval : Interval} {moves : Moves}
      (target : intervalOf effect.target width = some interval) (mode : effect.mode = .write moves)
      (value : denominated = true) : CapabilityOf _ _ _ (.instances interval moves)

variable {effect : Effect} {denominated : Bool} {key : SubstateKey} {held : Capability}

theorem pointCapability_ok (htarget : effect.target = .point key)
    (h : pointCapability key denominated effect.mode = .ok held) :
    CapabilityOf effect denominated width held := by
  cases hmode : effect.mode with
  | read =>
    rw [hmode] at h
    cases denominated with
    | false =>
      cases h
      exact .read htarget hmode rfl
    | true =>
      cases h
      exact .amountRead htarget hmode rfl
  | write moves =>
    rw [hmode] at h
    cases denominated with
    | false =>
      cases h
      exact .write htarget hmode rfl
    | true =>
      cases h
      exact .amount htarget hmode rfl
  | delta moves =>
    rw [hmode] at h
    cases denominated with
    | false => cases h
    | true =>
      cases h
      exact .delta htarget hmode rfl
  | reserve n =>
    rw [hmode] at h
    cases denominated with
    | false => cases h
    | true =>
      cases h
      exact .reserve htarget hmode rfl

theorem capabilityFor_ok (h : capabilityFor effect denominated width = .ok held) :
    CapabilityOf effect denominated width held := by
  unfold capabilityFor at h
  split at h
  · rename_i htarget
    exact pointCapability_ok htarget h
  · rename_i hmode _
    split at h
    · rename_i interval hinterval
      cases h
      exact .rangeRead hinterval hmode
    · cases h
  · rename_i moves hmode _
    split at h
    · rename_i interval hinterval
      cases denominated with
      | false =>
        cases h
        exact .rangeWrite hinterval hmode rfl
      | true =>
        cases h
        exact .instances hinterval hmode rfl
    · cases h
  · cases h

/-- A capability a session was given is that of an access its declaration makes. -/
structure Tabled (declaration : Declaration) (w : Setting) : Prop where
  length : w.table.length = declaration.ordered.length
  access : ∀ {rep : ℕ} {held : Capability}, w.table[rep]? = some held →
    ∃ access : DeclaredAccess, declaration.ordered[rep]? = some access ∧
      (w.cellResources[rep]?).getD none = access.holds ∧
      CapabilityOf access.effect access.holds.isSome
        (declaration.set.widthOf access.effect.target) held
  agree : ∀ a ∈ declaration.ordered, ∀ a' ∈ declaration.ordered,
    contentsOf a.effect.target = contentsOf a'.effect.target → a.holds = a'.holds

theorem buildTable_ok {set : EffectSet} {contents : List (Contents × Option ResourceAddr)}
    {ordered : List DeclaredAccess} {table : List Capability}
    (h : buildTable set contents ordered = .ok table) : table.length = ordered.length ∧
    (∀ {rep : ℕ} {held : Capability}, table[rep]? = some held →
      ∃ access : DeclaredAccess, ordered[rep]? = some access ∧
        CapabilityOf access.effect access.holds.isSome (set.widthOf access.effect.target) held) ∧
    (∀ a ∈ ordered, ∀ held, contents.lookup (contentsOf a.effect.target) = some held →
      held = a.holds) ∧ ∀ a ∈ ordered, ∀ a' ∈ ordered,
      contentsOf a.effect.target = contentsOf a'.effect.target → a.holds = a'.holds := by
  induction ordered generalizing contents table with
  | nil =>
    cases h
    simp
  | cons access rest ih =>
    unfold buildTable at h
    dsimp only at h
    split at h
    · cases h
    rename_i hmixed
    obtain ⟨held, hheld, table', htable, h⟩ := binds_ok.mp h
    cases h
    obtain ⟨hlength, haccess, hlookup, hagree⟩ := ih htable
    have hfirst : ∀ held, contents.lookup (contentsOf access.effect.target) = some held →
        held = access.holds := by
      intro held hfound
      rw [hfound] at hmixed
      simpa using hmixed
    -- a later access on the first one's contents was compared with it
    have hlater : ∀ a ∈ rest, contentsOf a.effect.target = contentsOf access.effect.target →
        access.holds = a.holds := by
      intro a ha hsame
      refine hlookup a ha access.holds ?_
      rw [hsame, lookup_cons_self]
    refine ⟨congrArg (· + 1) hlength, ?_, ?_, ?_⟩
    · intro rep held' hrep
      cases rep with
      | zero =>
        cases hrep
        exact ⟨access, rfl, capabilityFor_ok hheld⟩
      | succ rep => exact haccess hrep
    · intro a ha held' hfound
      rcases mem_cons.mp ha with rfl | ha
      · exact hfirst held' hfound
      by_cases hsame : contentsOf a.effect.target = contentsOf access.effect.target
      · rw [hsame] at hfound
        exact (hfirst held' hfound).trans (hlater a ha hsame)
      refine hlookup a ha held' ?_
      have hne : (contentsOf a.effect.target == contentsOf access.effect.target) = false := by
        simpa using hsame
      rw [lookup_cons, hne]
      exact hfound
    · intro a ha a' ha' hsame
      rcases mem_cons.mp ha with rfl | hin
      · rcases mem_cons.mp ha' with rfl | hin'
        · rfl
        · exact hlater a' hin' hsame.symm
      · rcases mem_cons.mp ha' with rfl | hin'
        · exact (hlater a hin hsame).symm
        · exact hagree a hin a' hin' hsame

variable {declaration : Declaration} {s : Session}

theorem Tabled.given (h : Tabled declaration s.setting)
    (g : Given) : Tabled declaration (s.given g).setting :=
  ⟨h.length, h.access, h.agree⟩

def asks : JudgedLeaf → List Access
  | .presence target _ => occupiedAccesses target
  | .signed cell _ => [⟨.point cell, .read⟩]
  | .claim _ | .stored _ => []

structure Looked (asked : Access → Prop) (o o' : OverlayStore) : Prop where
  same : o' = { o with log := o'.log }
  log : ∀ access ∈ o'.log, access ∈ o.log ∨ asked access

namespace Looked

variable {asked asked' : Access → Prop} {o o' o'' : OverlayStore}

theorem refl (o : OverlayStore) : Looked asked o o := ⟨rfl, fun _ h => .inl h⟩

theorem trans (h : Looked asked o o') (h' : Looked asked o' o'') : Looked asked o o'' := by
  refine ⟨?_, fun access ha => ?_⟩
  · rw [h'.same, h.same]
  · rcases h'.log access ha with ha | ha
    · exact h.log access ha
    · exact .inr ha

theorem mono (h : Looked asked o o') (himp : ∀ access, asked access → asked' access) :
    Looked asked' o o' :=
  ⟨h.same, fun access ha => (h.log access ha).imp_right (himp access)⟩

theorem append {accesses : List Access} (h : ∀ access ∈ accesses, asked access) :
    Looked asked o { o with log := o.log ++ accesses } :=
  ⟨rfl, fun access ha => (mem_append.mp ha).imp_right (h access)⟩

end Looked

variable {codec : Codec} {o o' : OverlayStore}

theorem judgeLeaf_ok {leaf : JudgedLeaf} {verdict : Judgement}
    (h : judgeLeaf codec o leaf = .ok (o', verdict)) : Looked (· ∈ asks leaf) o o' := by
  cases leaf with
  | presence target expect =>
    obtain ⟨⟨o₁, held⟩, hoccupied, h⟩ := bind_ok.mp h
    cases h
    obtain rfl := Session.occupied_ok hoccupied
    exact .append fun _ ha => ha
  | signed cell keys =>
    cases h
    exact .append fun _ ha => ha
  | claim | stored =>
    cases h
    exact .refl o

mutual

theorem judgeRule_ok {codec : Codec} {o o' : OverlayStore} {verdict : Judgement} :
    ∀ {rule : Rule JudgedLeaf}, judgeRule codec o rule = .ok (o', verdict) →
      Looked (fun access => ∃ leaf ∈ rule.leaves, access ∈ asks leaf) o o'
  | .require leaf, h => by
    unfold judgeRule at h
    exact (judgeLeaf_ok h).mono fun access ha => ⟨leaf, by simp [Rule.leaves], ha⟩
  | .countOf count rules, h => by
    unfold judgeRule at h
    obtain ⟨⟨o₁, counted⟩, hbranches, h⟩ := bind_ok.mp h
    have hlooked := judgeBranches_ok hbranches
    cases counted with
    | none | some =>
      cases h
      exact hlooked

theorem judgeBranches_ok {codec : Codec} {o o' : OverlayStore} {got : ℕ} {unmet : Option Judgement}
    {counted : Option (ℕ × Option Judgement)} :
    ∀ {rules : List (Rule JudgedLeaf)}, judgeBranches codec o got unmet rules = .ok (o', counted) →
      Looked (fun access => ∃ leaf ∈ Rule.leavesAll rules, access ∈ asks leaf) o o'
  | [], h => by
    unfold judgeBranches at h
    cases h
    exact .refl o
  | rule :: rules, h => by
    unfold judgeBranches at h
    obtain ⟨⟨o₁, verdict⟩, hrule, h⟩ := bind_ok.mp h
    have hfirst :
        Looked (fun access => ∃ leaf ∈ Rule.leavesAll (rule :: rules), access ∈ asks leaf) o o₁ :=
      (judgeRule_ok hrule).mono fun access ⟨leaf, hleaf, ha⟩ =>
        ⟨leaf, by simp [Rule.leavesAll, hleaf], ha⟩
    have hrest : ∀ {got unmet counted}, judgeBranches codec o₁ got unmet rules = .ok (o', counted) →
        Looked (fun access => ∃ leaf ∈ Rule.leavesAll (rule :: rules), access ∈ asks leaf) o₁ o' :=
      fun h => (judgeBranches_ok h).mono fun access ⟨leaf, hleaf, ha⟩ =>
        ⟨leaf, by simp [Rule.leavesAll, hleaf], ha⟩
    cases verdict with
    | met | unmet | notSignedIn => exact hfirst.trans (hrest h)
    | unanswerable =>
      cases h
      exact hfirst

end

variable {judges : OwnerSet}

theorem judgeCondition_ok
    {condition : Condition} (h : judgeCondition codec judges o condition = .ok o') :
    Looked (fun access => ∃ leaf ∈ condition.rule.leaves, access ∈ asks leaf) o o' := by
  unfold judgeCondition at h
  dsimp only at h
  split at h
  · cases h
    exact .refl o
  split at h
  · cases h
  obtain ⟨⟨o₁, verdict⟩, hrule, h⟩ := bind_ok.mp h
  have hlooked := judgeRule_ok (mapError_ok.mp hrule)
  cases verdict with
  | met =>
    cases h
    exact hlooked
  | unmet | unanswerable | notSignedIn => cases h

theorem judgeConditions_ok {conditions : List Condition}
    (h : conditions.foldlM (judgeCondition codec judges) o = .ok o') :
    Looked (fun access => ∃ condition ∈ conditions, ∃ leaf ∈ condition.rule.leaves,
      access ∈ asks leaf) o o' := by
  induction conditions generalizing o with
  | nil =>
    cases h
    exact .refl _
  | cons condition conditions ih =>
    rw [foldlM_cons] at h
    obtain ⟨o₁, hfirst, h⟩ := bind_ok.mp h
    exact ((judgeCondition_ok hfirst).mono fun access ha =>
      ⟨condition, mem_cons_self, ha⟩).trans ((ih h).mono fun access ⟨c, hc, ha⟩ =>
        ⟨c, mem_cons_of_mem _ hc, ha⟩)

theorem OverlayStore.heldReservation_view (o : OverlayStore) (key : SubstateKey) (tx : TxHash) :
    Kernel.heldReservation o key tx = o.heldReservation key tx := by
  have hview : (AmountLedger.view o).holds key = o.effectiveHolds key := rfl
  unfold Kernel.heldReservation OverlayStore.heldReservation
  rw [hview]
  unfold OverlayStore.effectiveHolds
  rw [Library.getElem?_applyChanges, Library.getElem?_applyChanges]
  cases (o.active.held key)[tx]? <;> cases (o.committed.held key)[tx]? <;> rfl

variable {tx : TxHash} {requests requests' : List Request}

theorem adopt_ok {n : ℕ} (h : adopt o tx judges requests (key, n) = .ok requests') :
    (judges key.owner = false ∨ o.heldReservation key tx = some n) ∧ requests' = requests ∨
      judges key.owner = true ∧ o.heldReservation key tx = none ∧ requests' = requests ++
        [(tx, key, n)] := by
  unfold adopt at h
  dsimp only at h
  split at h
  · rename_i hjudges
    cases h
    exact .inl ⟨.inl (by simpa using hjudges), rfl⟩
  · rename_i hjudges
    split at h
    · rename_i held hheld
      split at h
      · rename_i heq
        cases h
        exact .inl ⟨.inr (heq ▸ hheld), rfl⟩
      · cases h
    · rename_i hheld
      cases h
      exact .inr ⟨by simpa using hjudges, hheld, rfl⟩

variable {reservations : List (SubstateKey × ℕ)}

theorem adopt_grows (h : reservations.foldlM (adopt o tx judges) requests = .ok requests') :
    ∀ r ∈ requests, r ∈ requests' := by
  induction reservations generalizing requests with
  | nil =>
    cases h
    exact fun _ hr => hr
  | cons p rest ih =>
    obtain ⟨key, n⟩ := p
    rw [foldlM_cons] at h
    obtain ⟨middle, hmiddle, h⟩ := bind_ok.mp h
    intro r hr
    refine ih h r ?_
    rcases adopt_ok hmiddle with ⟨-, rfl⟩ | ⟨-, -, rfl⟩
    · exact hr
    · exact mem_append_left _ hr

theorem adopt_foldlM (h : reservations.foldlM (adopt o tx judges) requests = .ok requests') :
    (∀ p ∈ reservations, judges p.1.owner = true →
      o.heldReservation p.1 tx = some p.2 ∨ (tx, p.1, p.2) ∈ requests') ∧
    ∀ r ∈ requests', r ∈ requests ∨ r.1 = tx ∧ judges r.2.1.owner = true ∧
      o.heldReservation r.2.1 tx = none ∧ r.2 ∈ reservations := by
  induction reservations generalizing requests with
  | nil =>
    cases h
    exact ⟨by simp, fun r hr => .inl hr⟩
  | cons reservation rest ih =>
    obtain ⟨key, n⟩ := reservation
    rw [foldlM_cons] at h
    obtain ⟨middle, hfirst, h⟩ := bind_ok.mp h
    have hkept := adopt_grows h
    obtain ⟨hheld, hfrom⟩ := ih h
    constructor
    · intro p hp hjudges
      rcases mem_cons.mp hp with rfl | hp
      · rcases adopt_ok hfirst with ⟨hno | hyes, -⟩ | ⟨-, -, rfl⟩
        · rw [hno] at hjudges
          cases hjudges
        · exact .inl hyes
        · exact .inr (hkept _ (by simp))
      · exact hheld p hp hjudges
    · intro r hr
      rcases hfrom r hr with hr | ⟨htx, hjudges, hnone, hmem⟩
      · rcases adopt_ok hfirst with ⟨-, rfl⟩ | ⟨hjudges, hnone, rfl⟩
        · exact .inl hr
        · rcases mem_append.mp hr with hr | hr
          · exact .inl hr
          · obtain rfl := mem_singleton.mp hr
            exact .inr ⟨rfl, hjudges, hnone, mem_cons_self⟩
      · exact .inr ⟨htx, hjudges, hnone, mem_cons_of_mem _ hmem⟩

theorem feasible_of_firstInfeasible {verdicts : List ((TxHash × SubstateKey) × Feasibility)}
    (h : firstInfeasible requests verdicts = none) : ∀ v ∈ verdicts, v.2 = .feasible := by
  intro v hv
  unfold firstInfeasible at h
  rw [Option.map_eq_none_iff, find?_eq_none] at h
  have hne := h v hv
  cases hverdict : v.2 with
  | feasible => rfl
  | infeasible => simp [hverdict] at hne

structure Opens (store : OverlayStore) (declaration : Declaration) (tx : TxHash) (env : EnvInputs)
    (codec : Codec) (judges : OwnerSet) (s : Session) : Prop where
  opened : s = .opened s.store declaration s.table tx env codec judges
  tabled : Tabled declaration s.setting
  base : s.store.base = store.base
  committed : s.store.committed = store.committed
  active : s.store.active = { store.active with held := s.store.active.held }
  held : ∀ p ∈ declaredReservations declaration.set, judges p.1.owner = true →
    s.store.heldReservation p.1 tx = some p.2
  unheld : ∀ key tx', s.store.heldReservation key tx' = store.heldReservation key tx' ∨
    tx' = tx ∧ store.heldReservation key tx = none ∧ judges key.owner = true ∧
      ∃ n, (key, n) ∈ declaredReservations declaration.set
  log : ∀ access ∈ s.store.log,
    (∃ condition ∈ declaration.conditions, ∃ leaf ∈ condition.rule.leaves, access ∈ asks leaf) ∨
    ∃ p ∈ declaredReservations declaration.set, access = ⟨.point p.1, .reserve⟩
  consistent : declaration.set.selfConflicting = none

/-- What judging some requests leaves of an overlay, besides the holds. -/
structure HeldOnly (requests : List Request) (o o' : OverlayStore) : Prop where
  base : o'.base = o.base
  committed : o'.committed = o.committed
  active : o'.active = { o.active with held := o'.active.held }
  unheld : ∀ key tx, o'.heldReservation key tx = o.heldReservation key tx ∨
    ∃ n, (tx, key, n) ∈ requests
  log : ∀ access ∈ o'.log, access ∈ o.log ∨ ∃ r ∈ requests, access = ⟨.point r.2.1, .reserve⟩

theorem HeldOnly.judgeAndHold (o : OverlayStore) (requests : List Request) :
    HeldOnly requests o (judgeAndHold o requests).1 := by
  refine judgeAndHold_induction ?_ ?_ ⟨rfl, rfl, rfl, fun _ _ => .inl rfl, fun _ ha => .inl ha⟩
  · intro o₁ r hr h
    refine ⟨h.base, h.committed, h.active, h.unheld, fun access ha => ?_⟩
    rcases mem_append.mp ha with ha | ha
    · exact h.log access ha
    · exact .inr ⟨r, hr, mem_singleton.mp ha⟩
  · intro o₁ r hr n h
    refine ⟨h.base, h.committed, ?_, ?_, h.log⟩
    · have hset : (setHold o₁ r.2.1 r.1 (some n)).active =
          { o₁.active with held := (setHold o₁ r.2.1 r.1 (some n)).active.held } := rfl
      refine hset.trans ?_
      rw [h.active]
    · intro key tx
      have hset : heldReservation (setHold o₁ r.2.1 r.1 (some n)) key tx =
          if r.2.1 = key ∧ r.1 = tx then some n else heldReservation o₁ key tx :=
        heldReservation_setHold
      rw [OverlayStore.heldReservation_view, OverlayStore.heldReservation_view] at hset
      by_cases hat : r.2.1 = key ∧ r.1 = tx
      · obtain ⟨rfl, rfl⟩ := hat
        exact .inr ⟨r.2.2, hr⟩
      · rw [if_neg hat] at hset
        rw [hset]
        exact h.unheld key tx

theorem materializeWithin_ok {store : OverlayStore} {env : EnvInputs}
    (h : materializeWithin store declaration tx env codec judges = .ok s) :
    Opens store declaration tx env codec judges s := by
  obtain ⟨requests, hrequests, table, htable, h⟩ := binds_ok.mp h
  split at h
  · cases h
  rename_i hconsistent
  obtain ⟨looked, hlooked, h⟩ := bind_ok.mp h
  split at h
  · cases h
  rename_i held verdicts hjudged
  split at h
  · cases h
  rename_i hnone
  cases h
  have hlook := judgeConditions_ok hlooked
  have honly : HeldOnly requests looked held := by
    have h := HeldOnly.judgeAndHold looked requests
    rwa [hjudged] at h
  obtain ⟨hadopted, hfrom⟩ := adopt_foldlM hrequests
  obtain ⟨hlength, haccess, -, hagree⟩ := buildTable_ok htable
  have hbefore : ∀ key tx, looked.heldReservation key tx = store.heldReservation key tx := by
    intro key tx
    rw [hlook.same]
    rfl
  constructor
  case opened => rfl
  case tabled =>
    refine ⟨hlength, fun {rep cap} hrep => ?_, hagree⟩
    obtain ⟨access, hordered, hcap⟩ := haccess hrep
    refine ⟨access, hordered, ?_, hcap⟩
    change ((declaration.ordered.map DeclaredAccess.holds)[rep]?).getD none = _
    rw [getElem?_map, hordered]
    rfl
  case base => exact honly.base.trans (by rw [hlook.same]; rfl)
  case committed => exact honly.committed.trans (by rw [hlook.same]; rfl)
  case active =>
    refine honly.active.trans ?_
    rw [hlook.same]
    rfl
  case held =>
    intro p hp hjudges
    change held.heldReservation p.1 tx = some p.2
    rcases hadopted p hp hjudges with hheld | hrequest
    · rcases honly.unheld p.1 tx with hsame | ⟨n, hn⟩
      · exact hsame.trans ((hbefore p.1 tx).trans hheld)
      -- what is already held was not requested
      rcases hfrom _ hn with hn | ⟨-, -, hno, -⟩
      · cases hn
      · rw [hheld] at hno
        cases hno
    · have hheld := judgeAndHold_holds hjudged (feasible_of_firstInfeasible hnone) hrequest
      rwa [OverlayStore.heldReservation_view] at hheld
  case unheld =>
    intro key tx'
    rcases honly.unheld key tx' with hsame | ⟨n, hn⟩
    · exact .inl (hsame.trans (hbefore key tx'))
    · rcases hfrom _ hn with hn | ⟨htx, hjudges, hno, hmem⟩
      · cases hn
      · exact .inr ⟨htx, hno, hjudges, n, hmem⟩
  case log =>
    intro access ha
    rcases honly.log access ha with ha | ⟨r, hr, rfl⟩
    · rcases hlook.log access ha with ha | ha
      · cases ha
      · exact .inl ha
    · rcases hfrom r hr with hr | ⟨-, -, -, hmem⟩
      · cases hr
      · exact .inr ⟨r.2, hmem, rfl⟩
  case consistent => exact hconsistent

def declaring (ordered : List DeclaredAccess) : Declaration where
  set := (ordered.foldlM (fun (set : EffectSet) access =>
    (set.insertBounded access.effect MAX_SLOT_WIDTH).map Prod.fst) EffectSet.new).getD .new
  ordered := ordered
  clauseSpans := []
  conditions := []
  proves := []
  clauseTaken := []
  expansions := ∅

def plainCodec : Codec where
  spent tx _ expiry := leBytes 8 tx ++ leBytes 8 expiry
  record _ tx crossed _ _ := leBytes 8 tx ++ encodeAmount crossed.amount
  answer _ tx answered _ := leBytes 8 tx ++ [if answered = .taken then 1 else 0]
  answerValues _ tx _ answered := [leBytes 8 tx ++ [if answered = .taken then 1 else 0]]
  authAdmits _ cell _ := cell.isSome
  ruleAdmits bytes _ := !bytes.isEmpty
  keyBytes key := leBytes 8 key.local_
  hash bytes := bytes

def plainEnv : EnvInputs := ⟨0, 0, fun _ => none, none⟩

abbrev opensOver (store : MemoryStore) (declaration : Declaration) :
    Except MaterializeError Session :=
  materializeWithin (.new store.toBaseline) declaration 9 plainEnv plainCodec .whole

/-- Everything applied, no record, no fee and no credit withheld. -/
abbrev Given.plain : Given := ⟨.whole, [], none, false⟩

theorem exists_run {store : MemoryStore} {declaration : Declaration} {g : Given}
    {ops : List SessionOp} {p : Session → Session → Bool} (h : passes (opensOver store declaration)
      (fun s => passes ((s.given g).run ops) (p s)) = true) :
    ∃ s t, opensOver store declaration = .ok s ∧ (s.given g).run ops = .ok t ∧ p s t = true := by
  obtain ⟨s, hopen, hrest⟩ := passes_iff.mp h
  obtain ⟨t, hrun, hp⟩ := passes_iff.mp hrest
  exact ⟨s, t, hopen, hrun, hp⟩

end HyperscaleVm.Kernel

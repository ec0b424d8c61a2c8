import HyperscaleVm.Kernel.Session.Opening

/-!
# Frames (`session.rs`, `session/reach.rs`)

A frame is what the walk lends between an entry and the next entry or exit: the sites it
binds, the buckets it lends and those the frame opens itself, the issuance it grants.
-/

namespace HyperscaleVm.Kernel
open Effects List Option
open Effects.Admission (IssuanceGrant)
open Library

structure Frame where
  sites : Finset ℕ
  buckets : Finset ℕ
  grants : List IssuanceGrant

namespace Frame

def entered : Frame := ⟨∅, ∅, []⟩

def bind (frame : Frame) (site : ℕ) : Frame := { frame with sites := insert site frame.sites }

def lend (frame : Frame) (rep : ℕ) : Frame := { frame with buckets := insert rep frame.buckets }

def after (frame : Option Frame) (op : SessionOp) (a : OpAnswer) : Option Frame :=
  match op with
  | .enterInvocation _ _ => some entered
  | .leaveInvocation => none
  | .bindSite _ => match a with
    | .number site => frame.map (bind · site)
    | _ => frame
  | .lendBucket rep => frame.map (lend · rep)
  | .grantIssuance grants => frame.map fun frame => { frame with grants }
  | op => match op.opens, a with
    | true, .number rep => frame.map (lend · rep)
    | _, _ => frame

variable {frame : Option Frame} {op : SessionOp}

theorem after_opens {rep : ℕ} (hopens : op.opens = true) :
    after frame op (.number rep) = frame.map (lend · rep) := by
  cases op <;> first | rfl | cases hopens

theorem after_still {a : OpAnswer}
    (hlends : op.lends = false) (hopens : op.opens = false) : after frame op a = frame := by
  cases op <;> first | rfl | (cases hlends; done) | cases hopens

end Frame

namespace Session

variable {s t : Session}

def runFramed (s : Session) (frame : Option Frame) :
    List SessionOp → Except SessionTrap (Session × Option Frame)
  | [] => .ok (s, frame)
  | op :: ops => do
    let (t, a) ← s.step op
    t.runFramed (Frame.after frame op a) ops

structure Tracks (s : Session) (frame : Option Frame) : Prop where
  sites : s.reach.lent = frame.map Frame.sites
  buckets : s.buckets.reach.lent = frame.map Frame.buckets
  grants : ∀ f, frame = some f → s.issuance = f.grants
  paired : s.buckets.resources.length = s.buckets.slots.length ∧
    s.buckets.origins.length = s.buckets.slots.length

variable {op : SessionOp} {a : OpAnswer}

theorem Tracks.step {frame : Option Frame} (h : s.Tracks frame)
    (hstep : s.step op = .ok (t, a)) : t.Tracks (Frame.after frame op a) := by
  cases hlends : op.lends with
  | true =>
    cases SessionOp.lends_of hlends <;> cases hstep
    · exact ⟨rfl, rfl, fun f hf => by cases hf; rfl, h.paired⟩
    · exact ⟨rfl, rfl, nofun, h.paired⟩
    -- what is bound, lent or granted is added to the frame there is
    · cases frame with
      | none => exact ⟨congrArg (Option.map _) h.sites, h.buckets, nofun, h.paired⟩
      | some f =>
        exact ⟨congrArg (Option.map _) h.sites, h.buckets,
          fun _ hf => by cases hf; exact h.grants f rfl, h.paired⟩
    · cases frame with
      | none => exact ⟨h.sites, congrArg (Option.map _) h.buckets, nofun, h.paired⟩
      | some f =>
        exact ⟨h.sites, congrArg (Option.map _) h.buckets,
          fun _ hf => by cases hf; exact h.grants f rfl, h.paired⟩
    · cases frame with
      | none => exact ⟨h.sites, h.buckets, nofun, h.paired⟩
      | some f => exact ⟨h.sites, h.buckets, fun _ hf => by cases hf; rfl, h.paired⟩
  | false =>
    have hwithin := (step_leaves hstep hlends).within
    obtain ⟨-, c, hedits, hmoved⟩ := hwithin.moves
    have hpaired : c.resources.length = c.slots.length ∧ c.origins.length = c.slots.length := by
      obtain ⟨hslots, hresources, horigins⟩ := hedits.lengths
      rw [hslots, hresources, horigins]
      exact h.paired
    have hgrants := hwithin.issuance
    cases hopens : op.opens with
    | true =>
      rw [hopens, if_pos rfl] at hmoved
      obtain ⟨held, resource, origin, rfl, hopened⟩ := hmoved
      rw [Frame.after_opens hopens]
      refine ⟨?_, ?_, ?_, ?_⟩
      · rw [hwithin.reach, h.sites, Option.map_map]
        rfl
      · rw [hopened]
        change c.reach.lent.map _ = _
        rw [hedits.reach, h.buckets, Option.map_map, Option.map_map]
        rfl
      · intro f hf
        obtain ⟨f', hf', rfl⟩ := map_eq_some_iff.mp hf
        rw [hgrants]
        exact h.grants f' hf'
      · rw [hopened]
        simp only [Buckets.opened, length_append, length_singleton]
        omega
    | false =>
      rw [hopens, if_neg Bool.false_ne_true] at hmoved
      rw [Frame.after_still hlends hopens]
      exact ⟨hwithin.reach ▸ h.sites, by rw [hmoved, hedits.reach]; exact h.buckets,
        fun f hf => hgrants.trans (h.grants f hf), hmoved ▸ hpaired⟩

theorem Tracks.run {frame frame' : Option Frame} {ops : List SessionOp} (h : s.Tracks frame)
    (hrun : s.runFramed frame ops = .ok (t, frame')) : t.Tracks frame' := by
  induction ops generalizing s frame with
  | nil =>
    cases hrun
    exact h
  | cons op ops ih =>
    obtain ⟨⟨u, a⟩, hstep, hrun⟩ := bind_ok.mp hrun
    exact ih (h.step hstep) hrun

variable {store : OverlayStore} {declaration : Declaration} {tx : TxHash} {env : EnvInputs}
  {codec : Codec} {judges : OwnerSet}

theorem tracks_opened {s : Session}
    (h : materializeWithin store declaration tx env codec judges = .ok s) (g : Given) :
    (s.given g).Tracks none := by
  have hopened := (materializeWithin_ok h).opened
  rw [hopened]
  exact ⟨rfl, rfl, nofun, rfl, rfl⟩

/-- A step of a frame that names only what the frame has, and leaves every other bucket. -/
structure Isolated (frame : Frame) (s : Session) (op : SessionOp) (t : Session) : Prop where
  site : ∀ site, op.site = some site → site ∈ frame.sites
  buckets : ∀ rep ∈ op.buckets, rep ∈ frame.buckets
  outside : ∀ rep < s.buckets.slots.length, rep ∉ frame.buckets →
    t.buckets.slots[rep]? = s.buckets.slots[rep]? ∧
      t.buckets.resources[rep]? = s.buckets.resources[rep]? ∧
      t.buckets.origins[rep]? = s.buckets.origins[rep]?
  granted : op.Granted frame.grants s

/-- A read answered from a page that was materialized through another frame's site. -/
def StaleRead (frame : Frame) (s : Session) (op : SessionOp) : Prop :=
  ∃ site element index page, op.page = some (site, element, index) ∧ site ∉ frame.sites ∧
    s.ranges.scans (site, element) = some page ∧ ∀ at_ ∈ index, at_ < page.entries.length

variable {frame : Frame}

theorem Tracks.site (h : s.Tracks (some frame)) {site : ℕ}
    (hreach : s.reach.holds site = true) : site ∈ frame.sites := by
  unfold Reach.holds at hreach
  rw [h.sites] at hreach
  exact of_decide_eq_true hreach

theorem Tracks.bucket (h : s.Tracks (some frame)) {rep : ℕ}
    (hreach : s.buckets.reach.holds rep = true) : rep ∈ frame.buckets := by
  unfold Reach.holds at hreach
  rw [h.buckets] at hreach
  exact of_decide_eq_true hreach

theorem Tracks.outside (h : s.Tracks (some frame))
    (hwithin : s.Within op a t) : ∀ rep < s.buckets.slots.length, rep ∉ frame.buckets →
    t.buckets.slots[rep]? = s.buckets.slots[rep]? ∧
      t.buckets.resources[rep]? = s.buckets.resources[rep]? ∧
      t.buckets.origins[rep]? = s.buckets.origins[rep]? := by
  intro rep hrep hout
  obtain ⟨hheld, c, hedits, hmoved⟩ := hwithin.moves
  have hnamed : rep ∉ op.buckets := fun hmem => hout (h.bucket (hheld rep hmem))
  obtain ⟨hslot, hresource, horigin⟩ := hedits.others rep hnamed
  obtain ⟨hslots, hresources, horigins⟩ := hedits.lengths
  cases hopens : op.opens with
  | true =>
    rw [hopens, if_pos rfl] at hmoved
    obtain ⟨held, resource, origin, -, hopened⟩ := hmoved
    rw [hopened]
    simp only [Buckets.opened]
    have hpaired := h.paired
    rw [getElem?_append_left (by omega), getElem?_append_left (by omega),
      getElem?_append_left (by omega)]
    exact ⟨hslot, hresource, horigin⟩
  | false =>
    rw [hopens, if_neg Bool.false_ne_true] at hmoved
    rw [hmoved]
    exact ⟨hslot, hresource, horigin⟩

theorem isolated_of_lends
    (hstep : s.step op = .ok (t, a)) (hlends : op.lends = true) : Isolated frame s op t := by
  cases SessionOp.lends_of hlends <;> cases hstep <;>
    exact ⟨nofun, nofun, fun _ _ _ => ⟨rfl, rfl, rfl⟩, trivial⟩

theorem stale_answers (h : StaleRead frame s op) :
    ∃ t a, s.step op = .ok (t, a) ∧ ¬ Isolated frame s op t := by
  obtain ⟨site, element, index, page, hpage, hsite, hheld, hindex⟩ := h
  have hscan : s.scan site element = .ok (s, page) := by
    unfold scan
    rw [hheld]
  have hindexed : ∀ at_, index = some at_ → ∃ found, indexed page at_ = .ok found := by
    rintro at_ rfl
    have hbound := hindex at_ rfl
    refine ⟨page.entries.get ⟨at_, hbound⟩, ?_⟩
    unfold indexed
    rw [getElem?_eq_getElem hbound]
    rfl
  cases op <;> try cases hpage
  case rangeCount =>
    refine ⟨s, .number page.entries.length, ?_, fun hisolated => hsite (hisolated.site site rfl)⟩
    exact map_ok.mpr ⟨_, bind_ok.mpr ⟨_, hscan, rfl⟩, rfl⟩
  case rangeOrder at_ =>
    obtain ⟨found, hfound⟩ := hindexed at_ rfl
    refine ⟨s, .number found.1, ?_, fun hisolated => hsite (hisolated.site site rfl)⟩
    exact map_ok.mpr ⟨_, bind_ok.mpr ⟨_, hscan, bind_ok.mpr ⟨found, hfound, rfl⟩⟩, rfl⟩
  case rangeEntry at_ =>
    obtain ⟨found, hfound⟩ := hindexed at_ rfl
    refine ⟨s, .bytes found.2, ?_, fun hisolated => hsite (hisolated.site site rfl)⟩
    exact map_ok.mpr ⟨_, bind_ok.mpr ⟨_, hscan, bind_ok.mpr ⟨found, hfound, rfl⟩⟩, rfl⟩

/-- In every frame of every run, a step is refused or isolated exactly if it is no read from
another frame's page. -/
theorem frame_isolated_iff {s₀ : Session}
    (hopen : materializeWithin store declaration tx env codec judges = .ok s₀) (g : Given)
    {ops : List SessionOp} {s : Session} {frame : Frame}
    (hrun : (s₀.given g).runFramed none ops = .ok (s, some frame)) (op : SessionOp) :
    (∀ t a, s.step op = .ok (t, a) → Isolated frame s op t) ↔ ¬ StaleRead frame s op := by
  have htracks := (tracks_opened hopen g).run hrun
  constructor
  · intro hisolated hstale
    obtain ⟨t, a, hstep, hnot⟩ := stale_answers hstale
    exact hnot (hisolated t a hstep)
  · intro hfresh t a hstep
    cases hlends : op.lends with
    | true => exact isolated_of_lends hstep hlends
    | false =>
      have hwithin := (step_leaves hstep hlends).within
      refine ⟨?_, fun rep hrep => htracks.bucket (hwithin.moves.1 rep hrep),
        htracks.outside hwithin, htracks.grants frame rfl ▸ hwithin.granted⟩
      intro site hsite
      rcases hwithin.site site hsite with hreach | ⟨element, index, page, hpage, hheld, hindex⟩
      · exact htracks.site hreach
      · by_contra hout
        exact hfresh ⟨site, element, index, page, hpage, hout, hheld, hindex⟩

end Session

def keeper : Address := ⟨1, .component⟩

def kept : Declaration := declaring [⟨⟨.range keeper 0 0 100 2, .write .both⟩, none, none, none⟩]

def leftBehind : List SessionOp :=
  [.enterInvocation keeper 0, .bindSite [some 0], .rangeInsert 1 0 3 [7], .rangeCount 1 0,
    .leaveInvocation, .enterInvocation ⟨2, .component⟩ 0]

theorem exists_framed {ops : List SessionOp} {sites : Finset ℕ} {op : SessionOp} {answer : OpAnswer}
    (h : passes (opensOver .new kept)
      (fun s => passes ((s.given .plain).runFramed none ops) fun (t, frame) =>
        decide (frame.map Frame.sites = some sites) && passes (t.step op) fun (_, a) =>
          a = answer) =
      true) :
    ∃ s t u frame, opensOver .new kept = .ok s ∧
      (s.given .plain).runFramed none ops = .ok (t, some frame) ∧
      frame.sites = sites ∧ t.step op = .ok (u, answer) := by
  obtain ⟨s, hopen, hrest⟩ := passes_iff.mp h
  obtain ⟨⟨t, frame⟩, hrun, hrest⟩ := passes_iff.mp hrest
  obtain ⟨hsites, hrest⟩ := Bool.and_eq_true_iff.mp hrest
  obtain ⟨⟨u, a⟩, hstep, ha⟩ := passes_iff.mp hrest
  obtain ⟨frame, rfl, hof⟩ := map_eq_some_iff.mp (of_decide_eq_true hsites)
  obtain rfl := of_decide_eq_true ha
  exact ⟨s, t, u, frame, hopen, hrun, hof, hstep⟩

/-- A frame that was bound nothing reads the entry the frame before it filed. -/
theorem page_outlives_its_frame :
    ∃ s t u frame, opensOver .new kept = .ok s ∧
      (s.given .plain).runFramed none leftBehind = .ok (t, some frame) ∧
      frame.sites = ∅ ∧ t.step (.rangeEntry 1 0 0) = .ok (u, .bytes [7]) ∧
      ¬ Session.Isolated frame t (.rangeEntry 1 0 0) u := by
  obtain ⟨s, t, u, frame, hopen, hrun, hempty, hstep⟩ :=
    @exists_framed leftBehind ∅ (.rangeEntry 1 0 0) (.bytes [7]) (by decide +kernel)
  refine ⟨s, t, u, frame, hopen, hrun, hempty, hstep, fun hisolated => ?_⟩
  have hmem := hisolated.site 1 rfl
  rw [hempty] at hmem
  exact absurd hmem (Finset.notMem_empty 1)

theorem own_page_is_isolated :
    ∃ s t u frame, opensOver .new kept = .ok s ∧
      (s.given .plain).runFramed none (leftBehind ++ [.bindSite [some 0]]) =
        .ok (t, some frame) ∧ t.step (.rangeEntry 2 0 0) = .ok (u, .bytes [7]) ∧
      Session.Isolated frame t (.rangeEntry 2 0 0) u := by
  obtain ⟨s, t, u, frame, hopen, hrun, hown, hstep⟩ :=
    @exists_framed (leftBehind ++ [.bindSite [some 0]]) {2} (.rangeEntry 2 0 0) (.bytes [7])
      (by decide +kernel)
  refine ⟨s, t, u, frame, hopen, hrun, hstep,
    (Session.frame_isolated_iff hopen _ hrun _).mpr ?_ u _ hstep⟩
  rintro ⟨site, element, index, page, hpage, hout, -⟩
  cases hpage
  rw [hown] at hout
  exact hout (Finset.mem_singleton_self 2)

end HyperscaleVm.Kernel

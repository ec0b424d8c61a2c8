import HyperscaleVm.Effects.Admission.Edges

/-!
# The interleave as a sort (`effects/src/admission/order.rs`)

One node is emitted at a time, the next of the lowest intent that waits on nothing.
-/

namespace HyperscaleVm.Effects.Admission
open Library List Option Interleaved

def allNodes (intents : List IntentView) : List (ℕ × ℕ) :=
  intents.zipIdx.flatMap fun (view, intent) => (List.range view.nodes.length).map (intent, ·)

variable {intents : List IntentView} {s s' : Interleaved} {node : ℕ × ℕ}

theorem mem_allNodes : node ∈ allNodes intents ↔
    ∃ view call, intents[node.1]? = some view ∧ view.nodes[node.2]? = some call := by
  unfold allNodes
  rw [mem_flatMap]
  constructor
  · rintro ⟨⟨view, intent⟩, hview, hnode⟩
    obtain ⟨local_, hlocal, rfl⟩ := mem_map.mp hnode
    have hlt := mem_range.mp hlocal
    exact ⟨view, _, List.mem_zipIdx_iff_getElem?.mp hview, List.getElem?_eq_getElem hlt⟩
  · rintro ⟨view, call, hview, hcall⟩
    refine ⟨(view, node.1), List.mem_zipIdx_iff_getElem?.mpr hview, ?_⟩
    exact List.mem_map.mpr ⟨node.2, List.mem_range.mpr (List.getElem?_eq_some_iff.mp hcall).1, rfl⟩

theorem length_allNodes :
    (allNodes intents).length = (intents.map fun view => view.nodes.length).sum := by
  unfold allNodes
  rw [length_flatMap]
  have hviews := congrArg (List.map fun view : IntentView => view.nodes.length)
    (List.zipIdx_map_fst 0 intents)
  rw [List.map_map] at hviews
  simp only [List.length_map, List.length_range]
  exact congrArg List.sum hviews

theorem nodup_allNodes : (allNodes intents).Nodup := by
  unfold allNodes
  rw [nodup_flatMap]
  constructor
  · rintro ⟨view, intent⟩ -
    refine List.Nodup.map ?_ nodup_range
    exact fun a b hab => (Prod.mk.inj hab).2
  · have hdistinct : (intents.zipIdx.map Prod.snd).Nodup := by
      rw [zipIdx_map_snd]
      exact nodup_range'
    refine (pairwise_map.mp hdistinct).imp fun {p q} hne node hp hq => ?_
    obtain ⟨a, -, rfl⟩ := mem_map.mp hp
    obtain ⟨b, -, hb⟩ := mem_map.mp hq
    exact hne (Prod.mk.inj hb).1.symm

def DependsOn (intents : List IntentView) (node before : ℕ × ℕ) : Prop :=
  node ∈ allNodes intents ∧ ComesAfter intents node before

def Acyclic (intents : List IntentView) : Prop :=
  ∀ node, ¬ Relation.TransGen (DependsOn intents) node node

def Supplied (intents : List IntentView) : Prop :=
  ∀ node before, DependsOn intents node before → before ∈ allNodes intents

def ReadyAfter (intents : List IntentView) (emitted : List (ℕ × ℕ)) (intent : ℕ) : Prop :=
  ∃ view node, intents[intent]? = some view ∧
    view.nodes[emitted.countP (·.1 = intent)]? = some node ∧ ∀ w ∈ waitsOn view node, w ∈ emitted

structure Interleaved.Scheduled (intents : List IntentView) (s : Interleaved) : Prop where
  ordered : s.Ordered intents
  counted : s.cursor = (List.range intents.length).map fun intent => s.order.countP (·.1 = intent)
  shaped : s.flatOf.map List.length = intents.map fun view => view.nodes.length
  nodup : s.order.Nodup
  lowest : ∀ (place intent local_ : ℕ), s.order[place]? = some (intent, local_) →
    local_ = (s.order.take place).countP (·.1 = intent) ∧
      ReadyAfter intents (s.order.take place) intent ∧
      ∀ lower < intent, ¬ ReadyAfter intents (s.order.take place) lower

namespace Interleaved.Scheduled

variable (h : s.Scheduled intents)

include h

theorem mem_order {node : ℕ × ℕ} : node ∈ s.order ↔ s.Emitted node.1 node.2 := by
  refine ⟨h.ordered.placed.emitted node, fun hemitted => ?_⟩
  obtain ⟨place, -, hat⟩ := h.ordered.placed.placedAt hemitted
  exact mem_of_getElem? hat.2

theorem subset {node : ℕ × ℕ} (hnode : node ∈ s.order) : node ∈ allNodes intents :=
  mem_allNodes.mpr (h.ordered.found node hnode)

variable {view : IntentView}

theorem cursor_at {intent : ℕ} (hview : intents[intent]? = some view) :
    s.cursor[intent]? = some (s.order.countP (·.1 = intent)) := by
  have hlt := (List.getElem?_eq_some_iff.mp hview).1
  rw [h.counted]
  simp [hlt]

theorem ready_iff {intent : ℕ} (hview : intents[intent]? = some view) :
    s.ready (view, intent) = true ↔ ReadyAfter intents s.order intent := by
  have hemitted : ∀ w : ℕ × ℕ,
      (s.cursor[w.1]?.map fun emitted => decide (w.2 < emitted)).getD false = true ↔
        w ∈ s.order := by
    intro w
    rw [h.mem_order]
    unfold Interleaved.Emitted
    cases s.cursor[w.1]? <;> simp
  unfold ready ReadyAfter
  dsimp only
  rw [h.cursor_at hview, bind_some]
  cases hnode : view.nodes[s.order.countP (·.1 = intent)]? with
  | none =>
    refine iff_of_false (by simp) ?_
    rintro ⟨view', node, hview', hnode', -⟩
    obtain rfl := some.inj (hview.symm.trans hview')
    rw [hnode] at hnode'
    cases hnode'
  | some node =>
    dsimp only
    rw [List.all_eq_true]
    constructor
    · intro hall
      exact ⟨view, node, hview, hnode, fun w hw => (hemitted w).mp (hall w hw)⟩
    · rintro ⟨view', node', hview', hnode', hall⟩ w hw
      obtain rfl := some.inj (hview.symm.trans hview')
      obtain rfl := some.inj (hnode.symm.trans hnode')
      exact (hemitted w).mpr (hall w hw)

end Interleaved.Scheduled

theorem step_lowest (h : s.Scheduled intents) (hstep : s.step intents = .ok s') :
    ∃ e : s.Emits intents s', ReadyAfter intents s.order e.index ∧
      ∀ lower < e.index, ¬ ReadyAfter intents s.order lower := by
  obtain ⟨e⟩ := step_emits hstep
  unfold step at hstep
  split at hstep
  · cases hstep
  rename_i view index hfound
  dsimp only at hstep
  split at hstep
  · have horder := e.order
    cases hstep
    obtain ⟨hready, place, hplace, hat, hbelow⟩ := find?_eq_some_iff_getElem.mp hfound
    rw [getElem_zipIdx, Prod.mk.injEq, zero_add] at hat
    obtain ⟨hview, rfl⟩ := hat
    have hindex : e.index = place := by
      have hlast := append_cancel_left horder
      exact (Prod.mk.inj (singleton_inj.mp hlast)).1.symm
    have hplace' : place < intents.length := by simpa using hplace
    have hview' : intents[place]? = some view := by
      rw [← hview]
      exact getElem?_eq_getElem hplace'
    refine ⟨e, ?_, fun lower hlower hlow => ?_⟩
    · rw [hindex]
      exact (h.ready_iff hview').mp hready
    · rw [hindex] at hlower
      obtain ⟨found, -, hfound', -⟩ := id hlow
      have hnot := hbelow lower hlower
      rw [List.getElem_zipIdx, zero_add] at hnot
      have hlt := (List.getElem?_eq_some_iff.mp hfound').2
      rw [hlt, (h.ready_iff hfound').mpr hlow] at hnot
      cases hnot
  · cases hstep

theorem start_scheduled (intents : List IntentView) : (start intents).Scheduled intents where
  ordered := ⟨start_placed intents, by simp [start], by simp [start]⟩
  counted := by
    refine ext_getElem (by simp [start]) fun i _ _ => ?_
    simp [start]
  shaped := by
    unfold start
    dsimp only
    rw [List.map_map]
    refine List.map_congr_left fun view _ => ?_
    simp
  nodup := nodup_nil
  lowest := nofun

theorem Interleaved.Scheduled.step (h : s.Scheduled intents) (hstep : s.step intents = .ok s') :
    s'.Scheduled intents := by
  obtain ⟨e, hready, hlowest⟩ := step_lowest h hstep
  have hnext : e.next = s.order.countP (·.1 = e.index) :=
    some.inj (e.nextFrom.symm.trans (h.cursor_at e.viewFrom))
  refine ⟨e.ordered h.ordered, ?_, ?_, ?_, ?_⟩
  · rw [e.cursor, h.counted, e.order]
    refine ext_getElem? fun i => ?_
    rw [getElem?_modify, getElem?_map, getElem?_map]
    cases hi : (range intents.length)[i]? with
    | none => simp
    | some j =>
      obtain ⟨-, rfl⟩ : i < intents.length ∧ i = j := by
        simpa [getElem?_eq_some_iff] using hi
      by_cases hat : e.index = i <;> simp [hat, countP_append]
  · rw [e.flatOf, ← h.shaped]
    refine ext_getElem? fun i => ?_
    rw [getElem?_map, getElem?_map, getElem?_modify]
    cases s.flatOf[i]? with
    | none => simp
    | some flat => by_cases hat : e.index = i <;> simp [hat]
  · rw [e.order, nodup_append]
    refine ⟨h.nodup, nodup_singleton _, fun node hnode other hother hsame => ?_⟩
    obtain rfl := mem_singleton.mp hother
    subst hsame
    -- the node emitted is past what its intent has emitted
    obtain ⟨next, hcursor, hlt⟩ := h.mem_order.mp hnode
    have hsame := some.inj (e.nextFrom.symm.trans hcursor)
    exact absurd hlt (by omega)
  · intro place intent local_ hplace
    rw [e.order] at hplace ⊢
    rcases getElem?_concat_some.mp hplace with hold | ⟨rfl, hlast⟩
    · rw [take_append_of_le_length (List.getElem?_eq_some_iff.mp hold).1.le]
      exact h.lowest place intent local_ hold
    · obtain ⟨rfl, rfl⟩ := Prod.mk.inj hlast
      rw [take_append_of_le_length le_rfl, take_length]
      exact ⟨hnext, hready, hlowest⟩

theorem step_stalls (h : s.Scheduled intents) : s.step intents = .error .cyclicSockets ↔
    ∀ intent, ¬ ReadyAfter intents s.order intent := by
  unfold step
  constructor
  · intro hstall intent hready
    obtain ⟨view, node, hview, -⟩ := id hready
    have hmem : (view, intent) ∈ intents.zipIdx := mem_zipIdx_iff_getElem?.mpr hview
    cases hfound : intents.zipIdx.find? s.ready with
    | none =>
      have hnone := find?_eq_none.mp hfound _ hmem
      exact hnone ((h.ready_iff hview).mpr hready)
    | some found =>
      rw [hfound] at hstall
      dsimp only at hstall
      split at hstall <;> cases hstall
  · intro hnone
    have hfound : intents.zipIdx.find? s.ready = none := by
      refine find?_eq_none.mpr fun ⟨view, intent⟩ hmem hready => ?_
      have hview := mem_zipIdx_iff_getElem?.mp hmem
      exact hnone intent ((h.ready_iff hview).mp hready)
    rw [hfound]

variable {intent : ℕ}

theorem step_numbered (h : s.Scheduled intents) (hready : ReadyAfter intents s.order intent) :
    if s.order.length < 2 ^ 32 then ∃ s', s.step intents = .ok s'
    else s.step intents = .error .tooManyNodes := by
  have hmoves : s.step intents ≠ .error .cyclicSockets := fun hstall =>
    (step_stalls h).mp hstall intent hready
  unfold step at hmoves ⊢
  cases hfound : intents.zipIdx.find? s.ready with
  | none =>
    rw [hfound] at hmoves
    exact absurd rfl hmoves
  | some found =>
    dsimp only
    split
    · exact ⟨_, rfl⟩
    · rfl

theorem Interleaved.Scheduled.ready_of_left (h : s.Scheduled intents) (hsupplied : Supplied intents)
    (hacyclic : Acyclic intents) {left : ℕ × ℕ} (hleft : left ∈ allNodes intents)
    (hnot : left ∉ s.order) : ∃ intent, ReadyAfter intents s.order intent := by
  let above : ℕ × ℕ → ℕ × ℕ → Prop := fun before node =>
    Relation.TransGen (DependsOn intents) node before
  have hstrict : IsStrictOrder (ℕ × ℕ) above :=
    { irrefl := hacyclic
      trans := fun a b c hab hbc => hbc.trans hab }
  have hfinite : {node | node ∈ allNodes intents ∧ node ∉ s.order}.Finite :=
    (finite_toSet (allNodes intents)).subset fun node hnode => hnode.1
  obtain ⟨⟨⟨intent, local_⟩, hin, hout⟩, -, hfirst⟩ :=
    (hfinite.wellFoundedOn (r := above)).has_min Set.univ ⟨⟨left, hleft, hnot⟩, trivial⟩
  obtain ⟨view, node, hview, hnode⟩ := mem_allNodes.mp hin
  have hbefore : ∀ other, DependsOn intents (intent, local_) other → other ∈ s.order := by
    intro other hother
    by_contra hunmet
    exact hfirst ⟨other, hsupplied _ _ hother, hunmet⟩ trivial (.single hother)
  have hcursor := h.cursor_at hview
  have hlocal : local_ = s.order.countP (·.1 = intent) := by
    refine le_antisymm (not_lt.mp fun hlt => ?_) (not_lt.mp fun hlt => ?_)
    · have hearlier := hbefore (intent, s.order.countP (·.1 = intent)) ⟨hin, .inl ⟨rfl, hlt⟩⟩
      obtain ⟨next, hnext, hless⟩ := h.mem_order.mp hearlier
      obtain rfl := some.inj (hcursor.symm.trans hnext)
      exact lt_irrefl _ hless
    · exact hout (h.mem_order.mpr ⟨_, hcursor, hlt⟩)
  subst hlocal
  exact ⟨intent, view, node, hview, hnode, fun w hw =>
    hbefore w ⟨hin, .inr ⟨view, node, hview, hnode, hw⟩⟩⟩

theorem exists_left {emitted : List (ℕ × ℕ)} (hless : emitted.length < (allNodes intents).length) :
    ∃ left ∈ allNodes intents, left ∉ emitted := by
  by_contra hall
  push Not at hall
  have hcovers : (allNodes intents).Subperm emitted := nodup_allNodes.subperm hall
  exact absurd hcovers.length_le (not_le.mpr hless)

inductive Interleaved.Ends (intents : List IntentView) :
    Except AdmissionError Interleaved → Prop where
  | sorted {s : Interleaved} (scheduled : s.Scheduled intents)
      (whole : s.order.length = (allNodes intents).length) (numbered : s.order.length ≤ 2 ^ 32) :
      Ends intents (.ok s)
  | stalled (unsorted : ¬ (Supplied intents ∧ Acyclic intents)) :
      Ends intents (.error .cyclicSockets)
  | exhausted (large : 2 ^ 32 < (allNodes intents).length) : Ends intents (.error .tooManyNodes)

theorem passes_ends {left : ℕ} (h : s.Scheduled intents)
    (hleft : s.order.length + left = (allNodes intents).length)
    (hnumbered : s.order.length ≤ 2 ^ 32) :
    Interleaved.Ends intents (passes intents left s) := by
  induction left generalizing s with
  | zero => exact .sorted h hleft hnumbered
  | succ left ih =>
    rw [Interleaved.passes]
    obtain ⟨node, hnode, hunmet⟩ : ∃ left ∈ allNodes intents, left ∉ s.order :=
      exists_left (by omega)
    by_cases hready : ∃ intent, ReadyAfter intents s.order intent
    · obtain ⟨intent, hready⟩ := hready
      have hstep := step_numbered h hready
      split at hstep
      · obtain ⟨t, hstep⟩ := hstep
        obtain ⟨e⟩ := step_emits hstep
        have hlength : t.order.length = s.order.length + 1 := by simp [e.order]
        rw [hstep]
        exact ih (h.step hstep) (by omega) (by omega)
      · rw [hstep]
        exact .exhausted (by omega)
    · have hstall := (step_stalls h).mpr (not_exists.mp hready)
      rw [hstall]
      exact .stalled fun hsorted => hready (h.ready_of_left hsorted.1 hsorted.2 hnode hunmet)

theorem interleave_ends (intents : List IntentView) :
    Interleaved.Ends intents (interleave intents) := by
  refine passes_ends (start_scheduled intents) ?_ (Nat.zero_le _)
  rw [length_allNodes]
  exact zero_add _

structure Interleaved.Sorts (intents : List IntentView) (s : Interleaved) : Prop where
  perm : s.order.Perm (allNodes intents)
  respects : ∀ node before, DependsOn intents node before → ∃ place earlier : ℕ,
    s.order[place]? = some node ∧ s.order[earlier]? = some before ∧ earlier < place
  inverse : ∀ intent local_ place : ℕ, ((s.flatOf[intent]?).bind fun flat => flat[local_]?) =
    some place ↔
    s.order[place]? = some (intent, local_)
  lowest : ∀ place intent local_ : ℕ, s.order[place]? = some (intent, local_) →
    local_ = (s.order.take place).countP (·.1 = intent) ∧
      ReadyAfter intents (s.order.take place) intent ∧
      ∀ lower < intent, ¬ ReadyAfter intents (s.order.take place) lower

theorem Interleaved.Scheduled.sorts (h : s.Scheduled intents)
    (hwhole : s.order.length = (allNodes intents).length) : s.Sorts intents where
  perm := (h.nodup.subperm fun _ => h.subset).perm_of_length_le hwhole.ge
  respects node before hdepends := by
    have hperm := (h.nodup.subperm fun _ => h.subset).perm_of_length_le hwhole.ge
    obtain ⟨place, hplace⟩ := mem_iff_getElem?.mp (hperm.mem_iff.mpr hdepends.1)
    obtain ⟨earlier, hless, hat⟩ := h.ordered.before place node hplace before hdepends.2
    exact ⟨place, earlier, hplace, hat.2, hless⟩
  inverse intent local_ place := by
    have hperm := (h.nodup.subperm fun _ => h.subset).perm_of_length_le hwhole.ge
    constructor
    · intro hflat
      -- a row is as wide as its intent, so the entry is a node's, and it was emitted
      obtain ⟨flat, hrow, hentry⟩ := bind_eq_some_iff.mp hflat
      have hwidth := congrArg (·[intent]?) h.shaped
      simp only [getElem?_map, hrow, map_some] at hwidth
      obtain ⟨view, hview, hlength⟩ := Option.map_eq_some_iff.mp hwidth.symm
      have hlt : local_ < view.nodes.length := hlength ▸ (List.getElem?_eq_some_iff.mp hentry).1
      have hnode : (intent, local_) ∈ allNodes intents :=
        mem_allNodes.mpr ⟨view, _, hview, List.getElem?_eq_getElem hlt⟩
      have hemitted := h.mem_order.mp (hperm.mem_iff.mpr hnode)
      obtain ⟨place', hflat', horder⟩ := h.ordered.placed.placed intent local_ hemitted
      obtain rfl := some.inj (hflat.symm.trans hflat')
      exact horder
    · intro horder
      have hemitted := h.mem_order.mp (mem_of_getElem? horder)
      obtain ⟨place', hflat, horder'⟩ := h.ordered.placed.placed intent local_ hemitted
      rw [hflat, getElem?_inj_of_nodup h.nodup horder horder']
  lowest := h.lowest

namespace Interleaved.Sorts

variable (h : s.Sorts intents)

include h

theorem supplied : Supplied intents := by
  intro node before hdepends
  obtain ⟨-, earlier, -, hearlier, -⟩ := h.respects node before hdepends
  exact h.perm.mem_iff.mp (mem_of_getElem? hearlier)

theorem acyclic : Acyclic intents := by
  have hnodup : s.order.Nodup := h.perm.nodup_iff.mpr nodup_allNodes
  -- along a chain the places fall
  have hfalls : ∀ node before, Relation.TransGen (DependsOn intents) node before →
    ∃ place earlier : ℕ,
      s.order[place]? = some node ∧ s.order[earlier]? = some before ∧ earlier < place := by
    intro node before hchain
    induction hchain with
    | single hdepends => exact h.respects _ _ hdepends
    | tail _ hdepends ih =>
      obtain ⟨place, middle, hplace, hmiddle, hless⟩ := ih
      obtain ⟨middle', earlier, hmiddle', hearlier, hless'⟩ := h.respects _ _ hdepends
      obtain rfl := getElem?_inj_of_nodup hnodup hmiddle hmiddle'
      exact ⟨place, earlier, hplace, hearlier, hless'.trans hless⟩
  intro node hcycle
  obtain ⟨place, earlier, hplace, hearlier, hless⟩ := hfalls node node hcycle
  exact absurd (getElem?_inj_of_nodup hnodup hearlier hplace) hless.ne

end Interleaved.Sorts

variable {flat : Flattened} {steps give : ℕ} {produced : Produced}
  {above : ℕ → Except AdmissionError Fill} {composer socket : ℕ} {filled : Fill}

theorem fillAuthority_holds {wanted : Claim} {source : ClaimRef}
    (habove : ∀ passed filled, above passed = .ok filled → ∀ node, filled.waitsOn = some node →
      flat.Holds node)
    (h : fillAuthority flat above composer wanted source intent socket = .ok filled)
    (hnode : filled.waitsOn = some node) : flat.Holds node := by
  obtain ⟨holder, hholder, h⟩ := bind_ok.mp h
  cases source with
  | node producer =>
    obtain ⟨hproducer, h⟩ := seq_ok.mp h
    cases h
    cases hnode
    exact ⟨holder, intentAt_ok.mp hholder, by simpa using hproducer⟩
  | account account =>
    obtain ⟨-, h⟩ := seq_ok.mp h
    obtain ⟨-, h⟩ := seq_ok.mp h
    cases h
    cases hnode
  | socket passed =>
    dsimp only at h
    split at h
    · obtain ⟨-, h⟩ := seq_ok.mp h
      exact habove passed filled h node hnode
    · cases h

theorem fill_holds : ∀ {intent socket : ℕ} {filled : Fill},
    fill flat steps intent socket = .ok filled → ∀ node, filled.waitsOn = some node →
      flat.Holds node := by
  induction steps with
  | zero => nofun
  | succ steps ih =>
    intro intent socket filled h node hnode
    rw [fill] at h
    split at h
    · cases h
    · cases h
    rename_i composer position hparent
    obtain ⟨declaring, -, binding, -, h⟩ := binds_ok.mp h
    split at h
    · obtain ⟨produced, through, rfl, hholds⟩ := fillValue_ok h
      cases hnode
      exact hholds fun _ _ => ih
    · exact fillAuthority_holds (fun _ _ => ih) h hnode
    all_goals cases h

theorem resolveTree_gives {resolutions : List Resolution}
    (h : resolveTree flat = .ok resolutions) {k : ℕ} {resolution : Resolution}
    (hk : resolutions[k]? = some resolution) {position : ℕ} {gives : List Produced}
    (hgives : resolution.memberGives[position]? = some gives)
    (hgive : gives[give]? = some produced) :
    ∃ member asked, yielded flat flat.intents.length member asked = .ok produced := by
  unfold resolveTree at h
  obtain ⟨allGives, hall, fills, -, h⟩ := binds_ok.mp h
  cases h
  rw [getElem?_map, Option.map_eq_some_iff] at hk
  obtain ⟨⟨own, ownGives⟩, hzip, rfl⟩ := hk
  have hown : allGives[k]? = some ownGives := (getElem?_zip_eq_some.mp hzip).2
  obtain ⟨⟨intent, at_⟩, -, hmembers⟩ := mapM_at hall hown
  obtain ⟨at_', -, hmember⟩ := mapM_at hmembers hgives
  obtain ⟨member, -, giver, -, hresolved⟩ := binds_ok.mp hmember
  obtain ⟨asked, -, hyielded⟩ := mapM_at hresolved hgive
  exact ⟨member, asked, hyielded⟩

section Resolved

variable {N : IntentHasher} {tree : IntentTree} {flat : Flattened} {resolutions : List Resolution}
  {identity : ℕ} {chain : ChainRecords} {ruleOf : List ℕ → Option StoredRule}

theorem holds_allNodes (hresolved : resolveTree flat = .ok resolutions) {node : ℕ × ℕ}
    (h : flat.Holds node) :
    node ∈ allNodes (envelopeOf N tree flat resolutions identity chain ruleOf).intents := by
  obtain ⟨holder, hholder, hlt⟩ := h
  have hlt' : node.1 < resolutions.length := by
    rw [resolveTree_length hresolved]
    exact (List.getElem?_eq_some_iff.mp hholder).1
  exact mem_allNodes.mpr ⟨_, _, envelopeOf_view.mpr
    ⟨holder, _, hholder, getElem?_eq_getElem hlt', rfl⟩, getElem?_eq_getElem hlt⟩

theorem supplied_of_resolved (hresolved : resolveTree flat = .ok resolutions) :
    Supplied (envelopeOf N tree flat resolutions identity chain ruleOf).intents := by
  rintro node before ⟨hnode, hafter⟩
  obtain ⟨view, call, hview, hcall⟩ := mem_allNodes.mp hnode
  rcases hafter with ⟨hsame, hless⟩ | ⟨view', call', hview', hcall', hwaits⟩
  · have hlt : before.2 < view.nodes.length := hless.trans (List.getElem?_eq_some_iff.mp hcall).1
    exact mem_allNodes.mpr ⟨view, _, hsame ▸ hview, List.getElem?_eq_getElem hlt⟩
  obtain ⟨intent, resolution, -, hresolution, rfl⟩ := envelopeOf_view.mp hview'
  refine holds_allNodes hresolved ?_
  rcases mem_append.mp hwaits with hsocket | hgive
  · obtain ⟨socket, -, hfill⟩ := mem_filterMap.mp hsocket
    obtain ⟨filled, hfilled, hwait⟩ := bind_eq_some_iff.mp hfill
    exact fill_holds (resolveTree_fills hresolved hresolution hfilled) before hwait
  · obtain ⟨give, -, hgive⟩ := mem_filterMap.mp hgive
    obtain ⟨produced, hproduced, rfl⟩ := Option.map_eq_some_iff.mp hgive
    obtain ⟨gives, hgives, hproduced⟩ := bind_eq_some_iff.mp hproduced
    obtain ⟨member, asked, hyielded⟩ := resolveTree_gives hresolved hresolution hgives hproduced
    exact yielded_holds hyielded

theorem numbered_of_resolved (hflat : flatten tree.root = .ok flat)
    (hresolved : resolveTree flat = .ok resolutions) :
    (allNodes (envelopeOf N tree flat resolutions identity chain ruleOf).intents).length ≤
      2 ^ 32 := by
  have hviews : (envelopeOf N tree flat resolutions identity chain ruleOf).intents.map
      (fun view => view.nodes.length) = flat.intents.map fun intent => intent.nodes.length := by
    have hzip := congrArg (List.map fun intent : Intent => intent.nodes.length)
      (List.map_fst_zip (resolveTree_length hresolved).ge)
    rw [List.map_map] at hzip
    unfold envelopeOf
    rw [List.map_map]
    exact hzip
  rw [length_allNodes, hviews]
  exact (flatten_ok hflat).2.1.trans (by decide)

end Resolved

/-- The interleave sorts a family exactly if it can be numbered, every node waited on is one of
it, and none depends on itself; where it cannot sort a family that can be numbered it answers a
cycle. What a tree resolves to can be numbered and holds what it waits on. -/
theorem interleave_sorts (intents : List IntentView) : ((∃ s, interleave intents = .ok s) ↔
      (allNodes intents).length ≤ 2 ^ 32 ∧ Supplied intents ∧ Acyclic intents) ∧
    (∀ s, interleave intents = .ok s → s.Sorts intents) ∧
    ((allNodes intents).length ≤ 2 ^ 32 → ¬ (Supplied intents ∧ Acyclic intents) →
      interleave intents = .error .cyclicSockets) ∧
    ∀ (N : IntentHasher) (tree : IntentTree) (flat : Flattened) (resolutions : List Resolution)
      (identity : ℕ) (chain : ChainRecords) (ruleOf : List ℕ → Option StoredRule),
      flatten tree.root = .ok flat → resolveTree flat = .ok resolutions →
      intents = (envelopeOf N tree flat resolutions identity chain ruleOf).intents →
      (allNodes intents).length ≤ 2 ^ 32 ∧ Supplied intents := by
  have hends := interleave_ends intents
  refine ⟨⟨?_, ?_⟩, ?_, ?_, ?_⟩
  · rintro ⟨s, hs⟩
    rw [hs] at hends
    cases hends with
    | sorted hscheduled hwhole hnumbered =>
      have hsorts := hscheduled.sorts hwhole
      exact ⟨hwhole ▸ hnumbered, hsorts.supplied, hsorts.acyclic⟩
  · rintro ⟨hsmall, hsorted⟩
    generalize hanswer : interleave intents = answer at hends
    cases hends with
    | sorted => exact ⟨_, rfl⟩
    | stalled hunsorted => exact absurd hsorted hunsorted
    | exhausted hlarge => exact absurd hsmall (not_le.mpr hlarge)
  · intro s hs
    rw [hs] at hends
    cases hends with
    | sorted hscheduled hwhole hnumbered => exact hscheduled.sorts hwhole
  · intro hsmall hunsorted
    generalize hanswer : interleave intents = answer at hends
    cases hends with
    | sorted hscheduled hwhole hnumbered =>
      have hsorts := hscheduled.sorts hwhole
      exact absurd ⟨hsorts.supplied, hsorts.acyclic⟩ hunsorted
    | stalled => rfl
    | exhausted hlarge => exact absurd hsmall (not_le.mpr hlarge)
  · intro N tree flat resolutions identity chain ruleOf hflat hresolved hintents
    subst hintents
    exact ⟨numbered_of_resolved hflat hresolved, supplied_of_resolved hresolved⟩

def unsupplied : IntentView where
  nodes := [⟨⟨⟨1, .component⟩, rfl⟩, "m", [], [.socket 0]⟩]
  sockets := [.authority (.ofSubject ⟨2, .principal⟩)]
  fills := [.claim 7 0]
  memberGives := []
  accounts := []
  attestedBy := []
  identity := 0

/-- It depends on no node of its own, and is answered as a cycle. -/
theorem stall_without_a_cycle :
    Acyclic [unsupplied] ∧ interleave [unsupplied] = .error .cyclicSockets := by
  refine ⟨fun node hcycle => ?_, rfl⟩
  have hends : ∀ node before, DependsOn [unsupplied] node before → node = (0, 0) ∧
      before = (7, 0) := by
    rintro node before ⟨hnode, hafter⟩
    obtain rfl : node = (0, 0) := mem_singleton.mp hnode
    rcases hafter with ⟨-, hless⟩ | ⟨view, call, hview, hcall, hwaits⟩
    · exact absurd hless (Nat.not_lt_zero _)
    · cases hview
      cases hcall
      exact ⟨rfl, mem_singleton.mp hwaits⟩
  obtain ⟨next, hfirst, -⟩ := Relation.TransGen.head'_iff.mp hcycle
  obtain ⟨last, -, hlast⟩ := Relation.TransGen.tail'_iff.mp hcycle
  have hsame := (hends _ _ hfirst).1.symm.trans (hends _ _ hlast).2
  cases hsame

end HyperscaleVm.Effects.Admission

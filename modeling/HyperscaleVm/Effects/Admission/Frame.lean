import HyperscaleVm.Effects.Admission.Node
import HyperscaleVm.Effects.Publish.Conditions

/-!
# What admission leaves of a frame (`effects/src/admission/node.rs`, `inject.rs`)
-/

namespace HyperscaleVm.Effects.Admission
open Publish List Option Library

structure Grown (d d' : Declaration) : Prop where
  conditions : ∀ c ∈ d.conditions, c ∈ d'.conditions
  kept : ∀ a ∈ d.ordered, a ∈ d'.ordered
  added :
    ∀ a ∈ d'.ordered, a ∈ d.ordered ∨ (a.effect.mode = .read ∧ a.holds = none ∧ a.reach = none)
  proves : d'.proves = d.proves

namespace Grown

variable {d d₁ d₂ : Declaration}

theorem refl (d : Declaration) : Grown d d := ⟨fun _ => id, fun _ => id, fun _ => .inl, rfl⟩

theorem trans (h₁ : Grown d d₁) (h₂ : Grown d₁ d₂) : Grown d d₂ where
  conditions c hc := h₂.conditions c (h₁.conditions c hc)
  kept a ha := h₂.kept a (h₁.kept a ha)
  added a ha := by
    rcases h₂.added a ha with h | h
    · exact h₁.added a h
    · exact .inr h
  proves := h₂.proves.trans h₁.proves

theorem read (d : Declaration) (set : EffectSet) (target : EffectTarget) :
    Grown d { d with set := set, ordered := d.ordered ++ [⟨⟨target, .read⟩, none, none, none⟩] }
      where
  conditions _ := id
  kept a ha := mem_append_left _ ha
  added a ha := by
    rcases mem_append.mp ha with ha | ha
    · exact .inl ha
    · obtain rfl := mem_singleton.mp ha
      exact .inr ⟨rfl, rfl, rfl⟩
  proves := rfl

theorem set (d : Declaration) (set : EffectSet) : Grown d { d with set := set } :=
  ⟨fun _ => id, fun _ => id, fun _ => .inl, rfl⟩

theorem condition (d : Declaration) (c : Condition) :
    Grown d { d with conditions := d.conditions ++ [c] } :=
  ⟨fun _ => mem_append_left _, fun _ => id, fun _ => .inl, rfl⟩

end Grown

theorem declareRead_grown (d : Declaration) (target : EffectTarget) :
    Grown d (declareRead d target) := by
  unfold declareRead
  dsimp only
  split
  · split
    · exact .read d _ target
    · exact .set d _
  · exact .refl d

variable (targets : List EffectTarget)

theorem foldl_declareRead_grown (d : Declaration) : Grown d (targets.foldl declareRead d) := by
  induction targets generalizing d with
  | nil => exact .refl d
  | cons t ts ih => exact (declareRead_grown d t).trans (ih _)

section

variable {H : Hasher} {grants : PresentedGrants} {node : ℕ} {d d' : Declaration}

theorem fence_grown {target : CallTarget} {rule : Option (Rule JudgedLeaf)}
    (h : fence H target d = .ok (d', rule)) : Grown d d' := by
  unfold fence at h
  split at h
  · cases h
    exact .refl d
  dsimp only at h
  split at h
  · cases h
    exact .refl d
  split at h
  · cases h
  rename_i set moved _
  cases h
  cases moved with
  | true => exact .read d set _
  | false => exact .set d set

theorem fenceHalt_grown (earned : Earned) (rules : ResourceGrants) (state : Movements) :
    Grown state.frame (fenceHalt H earned rules state).frame := by
  unfold fenceHalt
  split
  · exact declareRead_grown _ _
  · exact .refl _

variable {vaultDeposit : Bool}

def moverRule (H : Hasher) (owner : Address) (rule : StoredRule) : Rule JudgedLeaf :=
  Id.run (rule.mapLeaves fun leaf => pure (moverLeaf H owner leaf))

variable {earned : Earned} {state state' : Movements}

/-- No frame speaks for itself on a movement: an entry is asked whoever the frame is. -/
theorem injectEntry_ok {sealed : RuleBytes}
    (h : injectEntry H vaultDeposit node earned sealed state = .ok state') :
    ∃ rule, sealed.decode = some rule ∧ rule ≠ .never ∧ state' = { state with
      frame := (moverReads H earned.owner rule).foldl declareRead state.frame
      injected := state.injected ++
        [⟨moverRule H earned.owner rule, .entry rule, earned.resource, earned.behaviour⟩] } := by
  unfold injectEntry GrantedBehaviour.demanded at h
  cases hrule : sealed.decode with
  | none =>
    rw [hrule] at h
    cases h
  | some rule =>
    simp only [hrule, Bool.and_false, Bool.false_eq_true, if_false] at h
    split at h
    · cases h
    rename_i hnever
    split at h
    · cases h
    · cases h
      exact ⟨rule, rfl, hnever, rfl⟩

theorem injectMovement_grown
    (h : injectMovement H grants vaultDeposit node state earned = .ok state') :
    Grown state.frame state'.frame := by
  unfold injectMovement at h
  split at h
  · split at h
    · cases h
    · cases h
      exact .refl _
  · rename_i rules _
    dsimp only at h
    split at h
    · cases h
      exact fenceHalt_grown _ _ _
    · obtain ⟨rule, -, -, rfl⟩ := injectEntry_ok h
      exact (fenceHalt_grown earned rules state).trans (foldl_declareRead_grown _ _)

variable {injected : List Injected}

theorem injectMovementRules_grown
    (h : injectMovementRules H grants d vaultDeposit node = .ok (d', injected)) : Grown d d' := by
  obtain ⟨state, hfold, h⟩ := bind_ok.mp h
  cases h
  have hmarks := foldlM_marks (R := fun s t : Movements => Grown s.frame t.frame)
    (Q := fun _ _ => True) (fun s => .refl _) (fun _ _ _ => Grown.trans) (fun _ _ _ _ => id)
    (fun s t e _ he => ⟨injectMovement_grown he, trivial⟩) hfold
  exact hmarks.1

theorem appendInjected_grown {spent spent' : ℕ}
    (h : appendInjected node injected d spent = .ok (d', spent')) :
    Grown d d' ∧ d'.ordered = d.ordered ∧ ∀ i ∈ injected, i.rule ∈ d'.required := by
  have hmarks := foldlM_marks
    (R := fun s t : Declaration × ℕ => Grown s.1 t.1 ∧ t.1.ordered = s.1.ordered)
    (Q := fun (i : Injected) s => i.rule ∈ s.1.required) (fun s => ⟨.refl _, rfl⟩)
    (fun _ _ _ hst htu => ⟨hst.1.trans htu.1, htu.2.trans hst.2⟩)
    (fun i s t hst hi => ?_) (fun s t i _ hi => ?_) h
  · exact ⟨hmarks.1.1, hmarks.1.2, hmarks.2⟩
  · obtain ⟨c, hc, hrule⟩ := mem_map.mp hi
    exact mem_map.mpr ⟨c, hst.1.conditions c hc, hrule⟩
  · obtain ⟨s, spent⟩ := s
    obtain ⟨spent₁, -, hi⟩ := bind_ok.mp hi
    split at hi
    · rename_i hin
      cases hi
      exact ⟨⟨.refl _, rfl⟩, by simpa using hin⟩
    · cases hi
      exact ⟨⟨.condition _ _, rfl⟩, by simp [Declaration.required]⟩

end

structure JudgedFrame.Parts {H : Hasher} (S : Setting H) (call : GraphNode)
    (resolved : ResolvedCall) (bound : Bound) (node : ℕ) (j : JudgedFrame) where
  envelope : ℕ
  spent : ℕ
  evaluated : evaluateDeclaration H (callInputs S call resolved bound.values node)
    resolved.signature.effects envelope = .ok (j.evaluated, spent)
  placed : judgePrefixes j.evaluated call.target.1 node = .ok ()
  fenced : Declaration
  fenceFrom : Admission.fence H call.target j.evaluated = .ok (fenced, j.fence)
  fencedFrom : Grown j.evaluated fenced
  moved : Declaration
  reaches : List Injected
  movements : List Injected
  issues : List IssuanceGrant
  issuance : List Injected
  destroyed : List IssuanceGrant
  destruction : List Injected
  reachesFrom : injectReachRules S.grants fenced call.target.1 node = .ok reaches
  movementsFrom : injectMovementRules H S.grants fenced resolved.signature.isVaultDeposit node =
    .ok (moved, movements)
  issuanceFrom : injectIssuanceRules H resolved.signature call.target.1 resolved.record.config
    node = .ok (issues, issuance)
  destructionFrom : injectDestructionRules S.grants resolved.signature bound.inputs call.target.1
    node = .ok (destroyed, destruction)
  issues_eq : j.issues = issues ++ destroyed
  injected_eq : j.injected = reaches ++ movements ++ issuance ++ destruction
  grown : Grown j.evaluated j.frame
  ordered : j.frame.ordered = moved.ordered
  required : ∀ i ∈ j.injected, i.rule ∈ j.frame.required

variable {H : Hasher} {S : Setting H} {node : ℕ}

theorem judgeFrame_parts {call : GraphNode} {resolved : ResolvedCall} {bound : Bound}
    {spent : ℕ} {j : JudgedFrame} (h : judgeFrame S call resolved bound node spent = .ok j) :
    Nonempty (j.Parts S call resolved bound node) := by
  obtain ⟨⟨evaluated, spent₁⟩, heval, h⟩ := bind_ok.mp h
  rw [mapError_ok] at heval
  obtain ⟨hplaced, h⟩ := seq_ok.mp h
  obtain ⟨⟨fenced, rule⟩, hfence, ⟨issues, injected, frame, spent₂⟩, hinject, h⟩ := binds_ok.mp h
  cases h
  obtain ⟨reaches, hreach, ⟨moved, movements⟩, hmove, hinject⟩ := binds_ok.mp hinject
  obtain ⟨⟨granted, issuance⟩, hissue, ⟨destroyed, destruction⟩, hdestroy, hinject⟩ :=
    binds_ok.mp hinject
  obtain ⟨⟨frame', spent₃⟩, happend, hinject⟩ := bind_ok.mp hinject
  cases hinject
  have hfenced := fence_grown hfence
  obtain ⟨hgrown, hordered, hrequired⟩ := appendInjected_grown happend
  exact ⟨{
    envelope := spent, spent := spent₁, evaluated := heval, placed := hplaced
    fenced := fenced, fenceFrom := hfence, fencedFrom := hfenced, moved := moved
    reaches := reaches, movements := movements, issues := granted, issuance := issuance
    destroyed := destroyed, destruction := destruction
    reachesFrom := hreach, movementsFrom := hmove, issuanceFrom := hissue
    destructionFrom := hdestroy, issues_eq := rfl, injected_eq := rfl
    grown := hfenced.trans ((injectMovementRules_grown hmove).trans hgrown)
    ordered := hordered, required := hrequired }⟩

structure AdmittedNode (S : Setting H) where
  index : ℕ
  call : GraphNode
  resolved : ResolvedCall
  resolvedFrom : resolveCall S call index = .ok resolved
  bound : Bound
  judged : JudgedFrame
  parts : judged.Parts S call resolved bound index

def AdmittedNode.frame (n : AdmittedNode S) : Frame H n.resolved.signature :=
  ⟨callInputs S n.call n.resolved n.bound.values n.index, n.parts.envelope, n.parts.spent,
    n.judged.evaluated, n.parts.evaluated⟩

def AdmittedNode.Creates (n : AdmittedNode S) (t : EffectTarget) : Prop :=
  t ∈ absences n.judged.frame ∧ writes n.judged.frame t = true

structure Walked.Traces (w : Walked) (nodes : List (AdmittedNode S)) : Prop where
  count : w.nodes.length = nodes.length
  indexed : ∀ i (n : AdmittedNode S), nodes[i]? = some n → n.index = i
  injected : w.injected = nodes.map fun n => n.judged.injected
  issues : (w.calls.map fun call => call.issues) = nodes.map fun n => n.judged.issues
  targets : (w.calls.map fun call => call.target) = nodes.map fun n => n.call.target.1
  requires : (w.calls.map fun call => call.requires) =
    nodes.map fun n => (splitConditions n.judged.frame n.index).2
  frames : w.frames = nodes.map fun n => n.judged.frame.ordered
  conditions : ∀ n ∈ nodes, ∀ c ∈ n.judged.frame.conditions,
    JudgedLeaf.stage c.rule = .atMaterialization →
      (⟨c.rule, some n.index⟩ : Condition) ∈ w.declaration.conditions
  ordered : w.declaration.ordered = nodes.flatMap fun n => n.judged.frame.ordered
  created : ∀ n ∈ nodes, ∀ t, n.Creates t → t ∈ w.created
  apart : nodes.Pairwise fun n n' => ∀ t, n.Creates t → t ∉ absences n'.judged.frame

variable {frame : Declaration}

theorem foldUnion_ok {union union' : Declaration} (h : foldUnion frame union = .ok union') :
    union'.ordered = union.ordered ++ frame.ordered ∧ union'.conditions = union.conditions := by
  unfold foldUnion at h
  generalize frame.ordered = accesses at h ⊢
  induction accesses generalizing union with
  | nil =>
    cases h
    simp
  | cons a as ih =>
    simp only [foldlM_cons] at h
    obtain ⟨next, hstep, h⟩ := bind_ok.mp h
    split at hstep
    · cases hstep
      obtain ⟨ho, hc⟩ := ih h
      exact ⟨by simp [ho], hc⟩
    · cases hstep

theorem mem_foldl_insert {t : EffectTarget} (created : Std.ExtTreeMap EffectTarget ℕ) :
    t ∈ targets.foldl (fun created target => created.insert target node) created ↔
      t ∈ targets ∨ t ∈ created := by
  induction targets generalizing created with
  | nil => simp
  | cons x xs ih =>
    simp only [foldl_cons, ih, Std.ExtTreeMap.mem_insert, mem_cons,
      Std.LawfulEqCmp.compare_eq_iff_eq, eq_comm (a := t)]
    tauto

theorem judgeCreates_ok {created created' : Std.ExtTreeMap EffectTarget ℕ}
    (h : judgeCreates created frame node = .ok created') :
    (∀ t ∈ absences frame, t ∉ created) ∧
      ∀ t, t ∈ created' ↔ (t ∈ absences frame ∧ writes frame t = true) ∨ t ∈ created := by
  obtain ⟨habsent, h⟩ := seq_ok.mp h
  cases h
  refine ⟨fun t ht hmem => ?_, fun t => by rw [mem_foldl_insert]; simp [mem_filter]⟩
  have hone := tryAll_ok.mp habsent t ht
  rw [Std.ExtTreeMap.mem_iff_isSome_getElem?, isSome_iff_exists] at hmem
  obtain ⟨creator, hcreator⟩ := hmem
  simp [hcreator] at hone

structure LoweredNode (S : Setting H) (w : Walked) (at_ : ℕ × ℕ) (w' : Walked) where
  view : IntentView
  call : GraphNode
  viewFrom : S.intents[at_.1]? = some view
  callFrom : view.nodes[at_.2]? = some call
  resolved : ResolvedCall
  resolvedFrom : resolveCall S call w.nodes.length = .ok resolved
  bound : Bound
  boundFrom : bindArgs S view at_.1 at_.2 w.nodes.length call.args resolved.signature.params
    w.edges = .ok bound
  outputs : List (ResourceAddr × EdgeContent)
  judged : JudgedFrame
  judgedFrom : ∃ spent, judgeFrame S call resolved bound w.nodes.length spent = .ok judged
  evidence : List Claim
  evidenceFrom : ∃ spent spent', resolveEvidence S view at_.1 at_.2 w.nodes.length call
    judged.frame w.proven spent = .ok (evidence, spent')
  args : List CallArg
  argsFrom : ∃ spent spent', lowerArgs H (callInputs S call resolved bound.values w.nodes.length)
    w.nodes.length resolved.signature judged.frame w.tableLen bound.inputs spent =
      .ok (args, spent')
  nodes : w'.nodes = w.nodes ++ [⟨call.target.1, call.method, bound.inputs, evidence⟩]
  proven : w'.proven = w.proven ++ [judged.frame.proves]
  frames : w'.frames = w.frames ++ [judged.frame.ordered]
  injected : w'.injected = w.injected ++ [judged.injected]
  calls : w'.calls = w.calls ++ [⟨resolved.record.package, call.target.1, call.method, args,
    edgeBounds bound.inputs, outputs.map (·.2), resolved.signature.answers, judged.issues,
    evidence, (splitConditions judged.frame w.nodes.length).2,
    if resolved.signature.isVaultDeposit then .deposit else .guest⟩]
  origins : w'.origins = w.origins ++ [.of view.identity at_.2 resolved.signature]
  edges : w'.edges = ⟨bound.edges.outputs ++ [outputs],
    bound.edges.consumed ++ [outputs.map fun _ => 0]⟩
  created : judgeCreates w.created judged.frame w.nodes.length = .ok w'.created
  union : foldUnion judged.frame { w.declaration with
    conditions := w.declaration.conditions ++ (splitConditions judged.frame w.nodes.length).1 ++
      judged.fence.toList.map fun rule => ⟨rule, some w.nodes.length⟩ } = .ok w'.declaration
  tableLen : w'.tableLen = w.tableLen + judged.frame.ordered.length

variable {w w' : Walked} {at_ : ℕ × ℕ}

theorem lowerNode_ok (h : lowerNode S w at_ = .ok w') : Nonempty (LoweredNode S w at_ w') := by
  unfold lowerNode at h
  split at h
  · cases h
  rename_i view call hfound
  obtain ⟨view, hview, hcall⟩ := bind_eq_some_iff.mp hfound
  obtain ⟨call, hcall, heq⟩ := map_eq_some_iff.mp hcall
  cases heq
  obtain ⟨-, h⟩ := seq_ok.mp h
  obtain ⟨resolved, hresolved, bound, hbound, h⟩ := binds_ok.mp h
  obtain ⟨spent₁, -, ⟨outputs, spent₂⟩, -, h⟩ := binds_ok.mp h
  obtain ⟨judged, hjudged, ⟨evidence, spent₃⟩, hevidence, h⟩ := binds_ok.mp h
  obtain ⟨created, hcreated, ⟨args, spent₄⟩, hargs, h⟩ := binds_ok.mp h
  obtain ⟨-, h⟩ := seq_ok.mp h
  obtain ⟨union, hunion, h⟩ := bind_ok.mp h
  cases h
  exact ⟨{
    view := view, call := call, viewFrom := hview, callFrom := hcall, resolved := resolved
    resolvedFrom := hresolved, bound := bound, boundFrom := hbound, outputs := outputs
    judged := judged, judgedFrom := ⟨_, hjudged⟩, evidence := evidence
    evidenceFrom := ⟨_, _, hevidence⟩, args := args, argsFrom := ⟨_, _, hargs⟩
    nodes := rfl, proven := rfl, frames := rfl, injected := rfl, calls := rfl, origins := rfl
    edges := rfl, created := hcreated, union := hunion, tableLen := rfl }⟩

structure Walked.Lowers (w : Walked) (n : AdmittedNode S) (w' : Walked) : Prop where
  index : n.index = w.nodes.length
  count : w'.nodes.length = w.nodes.length + 1
  injected : w'.injected = w.injected ++ [n.judged.injected]
  issues : (w'.calls.map fun call => call.issues) =
    (w.calls.map fun call => call.issues) ++ [n.judged.issues]
  targets : (w'.calls.map fun call => call.target) =
    (w.calls.map fun call => call.target) ++ [n.call.target.1]
  requires : (w'.calls.map fun call => call.requires) =
    (w.calls.map fun call => call.requires) ++ [(splitConditions n.judged.frame n.index).2]
  frames : w'.frames = w.frames ++ [n.judged.frame.ordered]
  created : judgeCreates w.created n.judged.frame n.index = .ok w'.created
  conditions : w'.declaration.conditions = w.declaration.conditions ++
    (splitConditions n.judged.frame n.index).1 ++
      n.judged.fence.toList.map fun rule => ⟨rule, some n.index⟩
  ordered : w'.declaration.ordered = w.declaration.ordered ++ n.judged.frame.ordered

theorem lowerNode_lowers (h : lowerNode S w at_ = .ok w') : ∃ n :
    AdmittedNode S, w.Lowers n w' := by
  obtain ⟨l⟩ := lowerNode_ok h
  obtain ⟨spent, hjudged⟩ := l.judgedFrom
  obtain ⟨parts⟩ := judgeFrame_parts hjudged
  obtain ⟨hordered, hconditions⟩ := foldUnion_ok l.union
  exact ⟨⟨_, l.call, l.resolved, l.resolvedFrom, l.bound, l.judged, parts⟩, {
    index := rfl, count := by simp [l.nodes], injected := l.injected, issues := by simp [l.calls]
    targets := by simp [l.calls], requires := by simp [l.calls], frames := l.frames
    created := l.created, conditions := hconditions, ordered := hordered }⟩

theorem Walked.Traces.lowers {nodes : List (AdmittedNode S)} {n : AdmittedNode S}
    (ht : w.Traces nodes) (h : w.Lowers n w') : w'.Traces (nodes ++ [n]) := by
  obtain ⟨habsent, hcreated⟩ := judgeCreates_ok h.created
  constructor
  case count => simp [h.count, ht.count]
  case indexed =>
    intro i m hi
    rcases getElem?_concat_some.mp hi with hi | ⟨rfl, rfl⟩
    · exact ht.indexed i m hi
    · rw [h.index, ht.count]
  case injected => simp [h.injected, ht.injected]
  case issues => simp [h.issues, ht.issues]
  case targets => simp [h.targets, ht.targets]
  case requires => simp [h.requires, ht.requires]
  case frames => simp [h.frames, ht.frames]
  case ordered => simp [h.ordered, ht.ordered]
  case conditions =>
    intro m hm c hc hstage
    rw [h.conditions]
    rcases mem_append.mp hm with hm | hm
    · exact mem_append_left _ (mem_append_left _ (ht.conditions m hm c hc hstage))
    · obtain rfl := mem_singleton.mp hm
      refine mem_append_left _ (mem_append_right _ ?_)
      exact mem_map.mpr ⟨c, mem_filter.mpr ⟨hc, by simpa using hstage⟩, rfl⟩
  case created =>
    intro m hm t hcreates
    rcases mem_append.mp hm with hm | hm
    · exact (hcreated t).mpr (.inr (ht.created m hm t hcreates))
    · obtain rfl := mem_singleton.mp hm
      exact (hcreated t).mpr (.inl hcreates)
  case apart =>
    refine pairwise_append.mpr ⟨ht.apart, pairwise_singleton _ _, ?_⟩
    intro m hm m' hm' t hcreates habs
    obtain rfl := mem_singleton.mp hm'
    exact habsent t habs (ht.created m hm t hcreates)

theorem lowerAll_traces {order : List (ℕ × ℕ)} (h : lowerAll S order = .ok w) :
    ∃ nodes : List (AdmittedNode S), w.Traces nodes := by
  have hstart : Walked.start.Traces ([] : List (AdmittedNode S)) := by
    constructor <;> simp [Walked.start, Declaration.empty]
  unfold lowerAll at h
  generalize Walked.start = w₀ at h hstart
  generalize ([] : List (AdmittedNode S)) = nodes at hstart
  induction order generalizing w₀ nodes with
  | nil =>
    cases h
    exact ⟨nodes, hstart⟩
  | cons at_ order ih =>
    simp only [foldlM_cons] at h
    obtain ⟨w₁, hstep, h⟩ := bind_ok.mp h
    obtain ⟨n, hn⟩ := lowerNode_lowers hstep
    exact ih w₁ h (nodes ++ [n]) (hstart.lowers hn)

end HyperscaleVm.Effects.Admission

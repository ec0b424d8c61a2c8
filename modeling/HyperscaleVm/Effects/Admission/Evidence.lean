import HyperscaleVm.Effects.Admission.Admit
import HyperscaleVm.Effects.Admission.Frame

/-!
# One position of the walk, and the evidence it carries
(`effects/src/admission/node.rs`, `order.rs`)

The walk lowers the flattened order node by node and only ever appends, so every position
of an accepted walk is one `lower_node` over exactly the nodes before it.
-/

namespace HyperscaleVm.Effects.Admission
open List Option Library

section

variable {H : Hasher} {S : Setting H} {w w' : Walked} {at_ : ℕ × ℕ}

structure Walked.Extends (w w' : Walked) : Prop where
  nodes : w.nodes <+: w'.nodes
  proven : w.proven <+: w'.proven
  frames : w.frames <+: w'.frames
  calls : w.calls <+: w'.calls
  origins : w.origins <+: w'.origins

theorem Walked.Extends.refl (w : Walked) : w.Extends w :=
  ⟨prefix_rfl, prefix_rfl, prefix_rfl, prefix_rfl, prefix_rfl⟩

theorem Walked.Extends.trans {w'' : Walked} (h : w.Extends w') (h' : w'.Extends w'') :
    w.Extends w'' :=
  ⟨h.nodes.trans h'.nodes, h.proven.trans h'.proven, h.frames.trans h'.frames,
    h.calls.trans h'.calls, h.origins.trans h'.origins⟩

theorem LoweredNode.extends (l : LoweredNode S w at_ w') : w.Extends w' :=
  ⟨⟨_, l.nodes.symm⟩, ⟨_, l.proven.symm⟩, ⟨_, l.frames.symm⟩, ⟨_, l.calls.symm⟩,
    ⟨_, l.origins.symm⟩⟩

structure Walked.Even (w : Walked) : Prop where
  proven : w.proven.length = w.nodes.length
  frames : w.frames.length = w.nodes.length
  calls : w.calls.length = w.nodes.length
  origins : w.origins.length = w.nodes.length

theorem LoweredNode.even (l : LoweredNode S w at_ w') (h : w.Even) : w'.Even where
  proven := by simp [l.proven, l.nodes, h.proven]
  frames := by simp [l.frames, l.nodes, h.frames]
  calls := by simp [l.calls, l.nodes, h.calls]
  origins := by simp [l.origins, l.nodes, h.origins]

variable {order : List (ℕ × ℕ)}

theorem foldlM_lowerNode (h : order.foldlM (lowerNode S) w = .ok w') (heven : w.Even) :
    w.Extends w' ∧ w'.Even ∧ w'.nodes.length = w.nodes.length + order.length := by
  induction order generalizing w with
  | nil =>
    cases h
    exact ⟨Walked.Extends.refl _, heven, rfl⟩
  | cons at_ order ih =>
    rw [foldlM_cons] at h
    obtain ⟨w₁, hstep, h⟩ := bind_ok.mp h
    obtain ⟨l⟩ := lowerNode_ok hstep
    obtain ⟨hext, heven', hlen⟩ := ih h (l.even heven)
    refine ⟨l.extends.trans hext, heven', ?_⟩
    rw [hlen, l.nodes, length_append, length_singleton, length_cons]
    omega

theorem start_even : Walked.start.Even := ⟨rfl, rfl, rfl, rfl⟩

theorem lowerAll_even (h : lowerAll S order = .ok w) : w.Even ∧ w.nodes.length = order.length := by
  obtain ⟨-, heven, hlen⟩ := foldlM_lowerNode h start_even
  exact ⟨heven, by simpa [Walked.start] using hlen⟩

structure WalkedAt (S : Setting H) (w : Walked) (j : ℕ) (at_ : ℕ × ℕ) where
  before : Walked
  after : Walked
  lowered : LoweredNode S before at_ after
  index : before.nodes.length = j
  even : before.Even
  beforeExtends : before.Extends w
  afterExtends : after.Extends w

theorem lowerAll_at (h : lowerAll S order = .ok w) {j : ℕ} (hj : order[j]? = some at_) :
    Nonempty (WalkedAt S w j at_) := by
  obtain ⟨t, u, htake, hstep, hdrop⟩ := foldlM_at h hj
  obtain ⟨-, heven, hlen⟩ := foldlM_lowerNode htake start_even
  obtain ⟨l⟩ := lowerNode_ok hstep
  have hafter := (foldlM_lowerNode hdrop (l.even heven)).1
  have hle : j ≤ order.length := (List.getElem?_eq_some_iff.mp hj).1.le
  refine ⟨⟨t, u, l, ?_, heven, l.extends.trans hafter, hafter⟩⟩
  simpa [Walked.start, length_take, Nat.min_eq_left hle] using hlen

namespace WalkedAt

variable {w : Walked} {j : ℕ} {at_ : ℕ × ℕ} (p : WalkedAt S w j at_)

include p

theorem node : w.nodes[j]? =
    some ⟨p.lowered.call.target.1, p.lowered.call.method, p.lowered.bound.inputs,
      p.lowered.evidence⟩ := by
  have hlast : p.after.nodes[j]? = some ⟨p.lowered.call.target.1, p.lowered.call.method,
      p.lowered.bound.inputs, p.lowered.evidence⟩ := by
    simp [p.lowered.nodes, ← p.index]
  exact getElem?_of_prefix p.afterExtends.nodes hlast

theorem provenBefore {i : ℕ} {claims : List Claim} (h : p.before.proven[i]? = some claims) :
    i < j ∧ w.proven[i]? = some claims := by
  have hlt := (List.getElem?_eq_some_iff.mp h).1
  exact ⟨by rwa [p.even.proven, p.index] at hlt, getElem?_of_prefix p.beforeExtends.proven h⟩

end WalkedAt

def IntentView.prover (view : IntentView) (intent : ℕ) : ClaimRef → Option (ℕ × ℕ)
  | .account _ => none
  | .node producer => some (intent, producer)
  | .socket reference =>
    match view.fills[reference]? with
    | some (.claim source producer) => some (source, producer)
    | _ => none

inductive Presents (S : Setting H) (view : IntentView) (intent local_ : ℕ)
    (proven : List (List Claim)) : ClaimRef → List Claim → Prop where
  | account {account : Address} (acts : account ∈ view.accounts) :
      Presents S view intent local_ proven (.account account) [Claim.ofSubject account]
  | node {producer flat : ℕ} {claims : List Claim} (before : producer < local_)
      (placed : S.flat intent producer = .ok flat) (proves : proven[flat]? = some claims) :
      Presents S view intent local_ proven (.node producer) claims
  | filledByAccount {reference : ℕ} {wanted : Claim} {account : Address}
      (declared : view.sockets[reference]? = some (.authority wanted))
      (filled : view.fills[reference]? = some (.account account)) :
      Presents S view intent local_ proven (.socket reference) [wanted]
  | filledByNode {reference source producer flat : ℕ} {wanted : Claim} {claims : List Claim}
      (declared : view.sockets[reference]? = some (.authority wanted))
      (filled : view.fills[reference]? = some (.claim source producer))
      (placed : S.flat source producer = .ok flat) (proves : proven[flat]? = some claims)
      (holds : wanted ∈ claims) :
      Presents S view intent local_ proven (.socket reference) [wanted]

variable {view : IntentView} {intent local_ node spent spent' : ℕ} {proven : List (List Claim)}
  {producer flat : ℕ}

theorem flat_ok {intent : ℕ} : S.flat intent producer = .ok flat ↔
    ((S.flatOf[intent]?).bind fun flat => flat[producer]?) = some flat := by
  unfold Setting.flat
  split
  all_goals
    rename_i heq
    simp [heq]

variable {reference : ClaimRef} {claims : List Claim}

theorem resolveClaim_ok
    (h : resolveClaim S view intent local_ node proven reference spent = .ok (claims, spent')) :
    Presents S view intent local_ proven reference claims := by
  cases reference with
  | account account =>
    simp only [resolveClaim] at h
    split at h
    · rename_i hacts
      cases h
      exact .account (by simpa using hacts)
    · cases h
  | node producer =>
    simp only [resolveClaim] at h
    split at h
    · rename_i hbefore
      obtain ⟨flat, hflat, h⟩ := bind_ok.mp h
      split at h
      · rename_i claim claims' hproven
        obtain ⟨spent₁, -, h⟩ := bind_ok.mp h
        cases h
        exact .node hbefore hflat hproven
      · cases h
    · cases h
  | socket reference =>
    simp only [resolveClaim] at h
    split at h
    · rename_i wanted account hdeclared hfilled
      cases h
      exact .filledByAccount hdeclared hfilled
    · rename_i wanted source producer hdeclared hfilled
      split at h
      · cases h
      rename_i flat hflat
      split at h
      · cases h
      rename_i claims' hproven
      split at h
      · rename_i hholds
        cases h
        exact .filledByNode hdeclared hfilled (flat_ok.mpr hflat) hproven (by simpa using hholds)
      · cases h
    · cases h

variable {evidence : List Claim}

theorem foldlM_resolveClaim {references : List ClaimRef} {found : List Claim}
    (h : references.foldlM (fun (evidence, spent) reference => do
      let (claims, spent) ← resolveClaim S view intent local_ node proven reference spent
      return (evidence ++ claims, spent)) (found, spent) = .ok (evidence, spent')) :
    (∀ claim ∈ evidence, claim ∈ found ∨ ∃ reference ∈ references, ∃ claims,
      Presents S view intent local_ proven reference claims ∧ claim ∈ claims) ∧
    ∀ reference ∈ references, ∃ claims, Presents S view intent local_ proven reference claims := by
  induction references generalizing found spent with
  | nil =>
    cases h
    exact ⟨fun claim hclaim => .inl hclaim, by simp⟩
  | cons reference references ih =>
    rw [foldlM_cons] at h
    obtain ⟨⟨found', spent₁⟩, hstep, h⟩ := bind_ok.mp h
    obtain ⟨⟨claims, spent₂⟩, hclaims, hstep⟩ := bind_ok.mp hstep
    cases hstep
    have hpresents := resolveClaim_ok hclaims
    obtain ⟨hfrom, hall⟩ := ih h
    constructor
    · intro claim hclaim
      rcases hfrom claim hclaim with hfound | ⟨other, hother, claims', hpresents', hmem⟩
      · rcases mem_append.mp hfound with hold | hnew
        · exact .inl hold
        · exact .inr ⟨reference, mem_cons_self, claims, hpresents, hnew⟩
      · exact .inr ⟨other, mem_cons_of_mem _ hother, claims', hpresents', hmem⟩
    · intro other hother
      rcases mem_cons.mp hother with rfl | hother
      · exact ⟨claims, hpresents⟩
      · exact hall other hother

theorem resolveEvidence_ok {call : GraphNode} {frame : Declaration}
    (h : resolveEvidence S view intent local_ node call frame proven spent =
      .ok (evidence, spent')) : (∀ claim ∈ evidence, ∃ reference ∈ call.evidence, ∃ claims,
      Presents S view intent local_ proven reference claims ∧ claim ∈ claims) ∧
    ∀ reference ∈ call.evidence, ∃ claims,
      Presents S view intent local_ proven reference claims := by
  unfold resolveEvidence at h
  obtain ⟨-, h⟩ := seq_ok.mp h
  obtain ⟨⟨evidence', spent₁⟩, hfold, h⟩ := bind_ok.mp h
  obtain ⟨-, h⟩ := seq_ok.mp h
  cases h
  obtain ⟨hfrom, hall⟩ := foldlM_resolveClaim hfold
  exact ⟨fun claim hclaim => (hfrom claim hclaim).resolve_left (not_mem_nil), hall⟩

theorem Presents.prover_before
    (h : Presents S view intent local_ proven reference claims) {source : ℕ}
    (hprover : view.prover intent reference = some (source, producer))
    (hflat : S.flat source producer = .ok flat) :
    ∃ made, proven[flat]? = some made ∧ ∀ claim ∈ claims, claim ∈ made := by
  cases h with
  | account => cases hprover
  | node before placed proves =>
    cases hprover
    rw [placed] at hflat
    cases hflat
    exact ⟨_, proves, fun _ h => h⟩
  | filledByAccount declared filled => simp [IntentView.prover, filled] at hprover
  | filledByNode declared filled placed proves holds =>
    simp only [IntentView.prover, filled, some.injEq, Prod.mk.injEq] at hprover
    obtain ⟨rfl, rfl⟩ := hprover
    rw [placed] at hflat
    cases hflat
    exact ⟨_, proves, by simpa using holds⟩

end

variable {H : Hasher} {V : Envelope}

structure AdmittedWalk (H : Hasher) (V : Envelope) (a : Admitted) where
  interleaved : Interleaved
  walked : Walked
  bindings : checkBindings V.intents = .ok ()
  interleavedFrom : interleave V.intents = .ok interleaved
  walkedFrom : lowerAll (H := H) ⟨V, interleaved.flatOf⟩ interleaved.order = .ok walked
  signed : signIns H V.intents walked.declaration = .ok a.declaration
  linear : checkLinear walked.edges.consumed = .ok ()
  nodes : a.nodes = walked.nodes
  frames : a.frames = walked.frames
  calls : a.calls = walked.calls
  origins : a.origins = walked.origins

variable {a : Admitted}

theorem admitIntents_ok (h : admitIntents H V = .ok a) : Nonempty (AdmittedWalk H V a) := by
  unfold admitIntents at h
  obtain ⟨hbindings, h⟩ := seq_ok.mp h
  obtain ⟨s, hs, w, hw, h⟩ := binds_ok.mp h
  obtain ⟨d, hd, h⟩ := bind_ok.mp h
  obtain ⟨hlinear, h⟩ := seq_ok.mp h
  cases h
  exact ⟨⟨s, w, hbindings, hs, hw, hd, hlinear, rfl, rfl, rfl, rfl⟩⟩

def Envelope.Relies (V : Envelope) (j i : ℕ) : Prop :=
  ∃ s, interleave V.intents = .ok s ∧ ∃ intent local_ view call,
    s.order[j]? = some (intent, local_) ∧ V.intents[intent]? = some view ∧
    view.nodes[local_]? = some call ∧ ∃ reference ∈ call.evidence, ∃ source producer,
      view.prover intent reference = some (source, producer) ∧
      ((s.flatOf[source]?).bind fun flat => flat[producer]?) = some i

theorem Envelope.Relies.before (h : admitIntents H V = .ok a) {j i : ℕ}
    (hrelies : V.Relies j i) : i < j ∧ j < a.nodes.length := by
  obtain ⟨W⟩ := admitIntents_ok h
  obtain ⟨s, hs, intent, local_, view, call, hj, hview, hcall, reference, hreference, source,
    producer, hprover, hflat⟩ := hrelies
  obtain rfl : W.interleaved = s := Except.ok.inj (W.interleavedFrom.symm.trans hs)
  obtain ⟨p⟩ := lowerAll_at W.walkedFrom hj
  obtain rfl : p.lowered.view = view := some.inj (p.lowered.viewFrom.symm.trans hview)
  obtain rfl : p.lowered.call = call := some.inj (p.lowered.callFrom.symm.trans hcall)
  obtain ⟨spent, spent', hevidence⟩ := p.lowered.evidenceFrom
  obtain ⟨claims, hpresents⟩ := (resolveEvidence_ok hevidence).2 reference hreference
  obtain ⟨made, hmade, -⟩ := hpresents.prover_before hprover (flat_ok.mpr hflat)
  refine ⟨(p.provenBefore hmade).1, ?_⟩
  rw [W.nodes, (lowerAll_even W.walkedFrom).2]
  exact (List.getElem?_eq_some_iff.mp hj).1

end HyperscaleVm.Effects.Admission

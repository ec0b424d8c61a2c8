import HyperscaleVm.Effects.Admission.Admit
import HyperscaleVm.Effects.Admission.Frame
import HyperscaleVm.Effects.Publish.Creates

/-!
# Admitted transactions and what they commit
(`effects/src/admission/mod.rs`, `kernel/src/session/materialize.rs`)
-/

namespace HyperscaleVm.Effects.Admission
open Library List
open Publish

def ChainRecords.Gated (chain : ChainRecords) : Prop :=
  ∀ digest package, chain.package digest = some package →
    ∀ method ∈ package.methods, checkSignature method.2 = .ok ()

def Envelope.Gated (V : Envelope) : Prop := V.chain.Gated

theorem running_gated {methods : List (String × MethodSignature)}
    (h : ∀ method ∈ methods, checkSignature method.2 = .ok ()) :
    (ChainRecords.running methods).Gated := by
  intro digest package hpackage
  cases hpackage
  exact h

/-- Takes a bucket into the vault it names. -/
def payIn : MethodSignature :=
  { MethodSignature.empty with
    params := [.bucket]
    effects := [.effect none (.point (selfChild VAULT (.single (.resourceOf (.arg 0)))))
      (.delta .in) (some (.resourceOf (.arg 0))) none]
    abi := [.handle 0 0, .bucket 0] }

structure Transaction (H : Hasher) where
  envelope : Envelope
  gated : envelope.Gated
  admitted : Admitted
  accepted : admitIntents H envelope = .ok admitted
  flatOf : List (List ℕ)
  walked : Walked
  nodes : List (AdmittedNode (H := H) ⟨envelope, flatOf⟩)
  traced : walked.Traces nodes
  injected_eq : admitted.injected = walked.injected
  calls_eq : admitted.calls = walked.calls
  signedIn : Grown walked.declaration admitted.declaration

variable {H : Hasher} {d d' : Declaration}

theorem signIn_grown {view : IntentView} {account : Address}
    (h : signIn H d view account = .ok d') : Grown d d' := by
  unfold signIn at h
  dsimp only at h
  split at h
  · cases h
  · rename_i set _ _
    cases h
    exact (Grown.read d set _).trans (.condition _ _)

theorem signIns_grown {intents : List IntentView} (h : signIns H intents d = .ok d') : Grown d d' :=
  (foldlM_marks (R := Grown) (Q := fun _ _ => True) Grown.refl (fun _ _ _ => Grown.trans)
    (fun _ _ _ _ => id) (fun _ _ _ _ hstep => ⟨signIn_grown hstep, trivial⟩) h).1

theorem transaction_of_admitted {V : Envelope} (hgated : V.Gated) {a : Admitted}
    (h : admitIntents H V = .ok a) : ∃ t : Transaction H, t.envelope = V ∧ t.admitted = a := by
  have haccepted := h
  obtain ⟨-, h⟩ := seq_ok.mp h
  obtain ⟨interleaved, -, w, hw, h⟩ := binds_ok.mp h
  obtain ⟨declaration, hsigned, h⟩ := bind_ok.mp h
  obtain ⟨-, h⟩ := seq_ok.mp h
  cases h
  obtain ⟨nodes, htraced⟩ := lowerAll_traces hw
  exact ⟨⟨V, hgated, _, haccepted, interleaved.flatOf, w, nodes, htraced, rfl, rfl,
    signIns_grown hsigned⟩, rfl, rfl⟩

theorem resolveCall_ok {S : Setting H} {call : GraphNode} {node : ℕ} {resolved : ResolvedCall}
    (h : resolveCall S call node = .ok resolved) :
    S.instance_ call.target = some resolved.record ∧ ∃ digest package name,
      S.chain.package digest = some package ∧ (name, resolved.signature) ∈ package.methods := by
  unfold resolveCall at h
  split at h
  · cases h
  rename_i record hrecord
  split at h
  · cases h
  rename_i package hpackage
  split at h
  · cases h
  rename_i signature hfind
  obtain ⟨-, h⟩ := seq_ok.mp h
  obtain ⟨-, h⟩ := seq_ok.mp h
  rw [← Except.ok.inj h]
  exact ⟨hrecord, _, package, _, hpackage, mem_of_find?_eq_some hfind⟩

theorem AdmittedNode.gated {S : Setting H} (hgated : S.toEnvelope.Gated)
    (n : AdmittedNode S) : checkSignature n.resolved.signature = .ok () := by
  obtain ⟨-, digest, package, name, hpackage, hmem⟩ := resolveCall_ok n.resolvedFrom
  exact hgated digest package hpackage _ hmem

namespace Transaction

variable {H : Hasher} (t : Transaction H)

def frames : Set (GatedFrame H) :=
  { g | ∃ n ∈ t.nodes, g = ⟨n.resolved.signature, n.gated t.gated, n.frame⟩ }

structure Commits (σ σ' : Leaves) : Prop where
  met : ∀ c ∈ t.admitted.declaration.conditions, ∀ key expect,
    c.rule = .require (.presence (.point key) expect) → metBy expect (σ key).isSome = true
  confined : ∀ key, σ' key ≠ σ key → KernelCell H key ∨
    ∃ a ∈ t.admitted.declaration.ordered,
      a.effect.target = .point key ∧ a.effect.mode.kind ≠ .read

theorem required_presence {n : AdmittedNode ⟨t.envelope, t.flatOf⟩} (hn : n ∈ t.nodes)
    {target : EffectTarget} {expect : Presence}
    (h : .require (.presence target expect) ∈ n.judged.frame.required) :
    ∃ c ∈ t.admitted.declaration.conditions, c.rule = .require (.presence target expect) := by
  obtain ⟨c, hc, hrule⟩ := mem_map.mp h
  have hmem := t.traced.conditions n hn c hc (by rw [hrule]; rfl)
  exact ⟨_, t.signedIn.conditions _ hmem, hrule⟩

theorem access_of_declared {a : DeclaredAccess} (ha : a ∈ t.admitted.declaration.ordered)
    (hkind : a.effect.mode.kind ≠ .read) : ∃ n ∈ t.nodes, a ∈ n.judged.evaluated.ordered := by
  have hread : a.effect.mode ≠ .read := fun h => hkind (by rw [h]; rfl)
  rcases t.signedIn.added a ha with h | h
  · rw [t.traced.ordered] at h
    obtain ⟨n, hn, hframe⟩ := mem_flatMap.mp h
    rcases n.parts.grown.added a hframe with h | h
    · exact ⟨n, hn, h⟩
    · exact absurd h.1 hread
  · exact absurd h.1 hread

theorem Commits.frames {t : Transaction H} {σ σ' : Leaves} (h : t.Commits σ σ') :
    Publish.Commits H t.frames σ σ' where
  met := by
    rintro g ⟨n, hn, rfl⟩ c hc key expect hrule
    have hreq : .require (.presence (.point key) expect) ∈ n.judged.frame.required :=
      mem_map.mpr ⟨c, n.parts.grown.conditions c hc, hrule⟩
    obtain ⟨c', hc', hrule'⟩ := t.required_presence hn hreq
    exact h.met c' hc' key expect hrule'
  confined := by
    intro key hchange
    rcases h.confined key hchange with hkernel | ⟨a, ha, htarget, hkind⟩
    · exact .inl hkernel
    · obtain ⟨n, hn, hdeclared⟩ := t.access_of_declared ha hkind
      exact .inr ⟨_, ⟨n, hn, rfl⟩, a, hdeclared, htarget, hkind⟩

end Transaction

theorem empty_transaction (H : Hasher) : ∃ t : Transaction H, t.nodes = [] ∧
    t.admitted.declaration.conditions = [] := by
  let V : Envelope := ⟨[], 0, ⟨fun _ => none, fun _ => none⟩, [], [], fun _ => none⟩
  have ha : admitIntents H V = .ok ⟨[], 0, [], [], [], .empty, []⟩ := rfl
  obtain ⟨t, -, hadmitted⟩ := transaction_of_admitted (fun _ _ h => by cases h) ha
  have hinjected := t.injected_eq
  rw [t.traced.injected, hadmitted] at hinjected
  exact ⟨t, map_eq_nil_iff.mp hinjected.symm, by rw [hadmitted]; rfl⟩

end HyperscaleVm.Effects.Admission

import HyperscaleVm.Effects.Admission.Evidence
import HyperscaleVm.Effects.Star.Crossings

/-!
# Where a proof is consumed
-/

namespace HyperscaleVm.Effects.Placement
open Library Admission Publish List

section

variable {a : Admitted}

theorem legsOf_getElem? {n : ℕ} {node : Node} (hn : a.nodes[n]? = some node) :
    ∃ leg, (legsOf a)[n]? = some leg ∧ leg.target = node.target := by
  simp [legsOf, hn]

theorem edges_of_source {leg : LegShape} (hleg : leg ∈ legsOf a) (hcore : leg.role ≠ .core)
    (hsink : leg.role ≠ .outbound) : leg.edges = [] := by
  simp only [legsOf, mem_map, Prod.exists] at hleg
  obtain ⟨node, index, -, rfl⟩ := hleg
  have hnone : takesNoEdge node = true := by
    by_contra hedge
    have hedge := Bool.eq_false_iff.mpr hedge
    simp only [classifyRole, hedge, Bool.false_and, Bool.false_eq_true, if_false] at hcore hsink
    split at hcore
    · rename_i houtbound
      exact hsink (if_pos houtbound)
    · exact hcore rfl
  simp only [takesNoEdge, all_eq_true] at hnone
  simp only [filterMap_eq_nil_iff]
  intro input hinput
  cases input with
  | literal value => rfl
  | edge source output resource content bounds => exact absurd (hnone _ hinput) (by simp)

end

/-- Every member running `j` runs `i`, or takes an escrowed arrival from a member running it. -/
def Star.Covers (star : Star) (j i : ℕ) : Prop :=
  ∀ s ∈ star.running j, s ∈ star.running i ∨
    ∃ e ∈ star.edges, e.kind = .escrowed ∧ s ∈ e.to_ ∧ e.from_ ∈ star.running i

def FeedsCore (legs : List LegShape) (payer : Address) (shards : Address → ℕ) (s : ℕ) : Prop :=
  ∃ consumer ∈ legs, shards consumer.target ∈ coreShards legs shards payer ∧
    ∃ edge ∈ consumer.edges, ∃ producer, legs[edge.source]? = some producer ∧
      shards producer.target = s

/-- The two nodes share a home, or the presenting one is on the core's shards and the proving
one is on them too or on a shard that feeds them. -/
def ProofAtHand (legs : List LegShape) (payer : Address) (shards : Address → ℕ) (j i : ℕ) : Prop :=
  ∀ presenter prover, legs[j]? = some presenter → legs[i]? = some prover →
    shards presenter.target = shards prover.target ∨
    shards presenter.target ∈ coreShards legs shards payer ∧
      (shards prover.target ∈ coreShards legs shards payer ∨
        FeedsCore legs payer shards (shards prover.target))

section

variable {legs : List LegShape} {payer : Address} {accounts : List Address} {shards : Address → ℕ}
  {j i : ℕ} {presenter prover : LegShape} {e : CrossingEdge} {s : ℕ}

theorem feedsCore_of_arrival (hi : legs[i]? = some prover)
    (hoff : shards prover.target ∉ coreShards legs shards payer)
    (he : e ∈ (placedAt legs payer shards).crossingEdges) (hs : s ∈ e.to_)
    (hcore : s ∈ coreShards legs shards payer)
    (hfrom : e.from_ ∈ (placedAt legs payer shards).running i) :
    FeedsCore legs payer shards (shards prover.target) := by
  obtain ⟨c, consumer, hc, edge, hedge, hcrossing⟩ := mem_crossingEdges.mp he
  obtain ⟨producer, hsource, -, rfl⟩ := crossing_eq_some.mp hcrossing
  have hc : legs[c]? = some consumer := hc
  rw [running_of_leg hi hoff, Finset.mem_singleton] at hfrom
  have hrunning : s ∈ (placedAt legs payer shards).running c := (Finset.mem_sdiff.mp hs).1
  have hhome : shards consumer.target ∈ coreShards legs shards payer := by
    by_contra hconsumer
    rw [running_of_leg hc hconsumer, Finset.mem_singleton] at hrunning
    exact hconsumer (hrunning ▸ hcore)
  exact ⟨consumer, mem_of_getElem? hc, hhome, edge, hedge, producer, hsource, hfrom⟩

theorem arrival_of_feedsCore (hi : legs[i]? = some prover)
    (hoff : shards prover.target ∉ coreShards legs shards payer)
    (hfeeds : FeedsCore legs payer shards (shards prover.target))
    (hs : s ∈ coreShards legs shards payer) :
    ∃ e ∈ (placedAt legs payer shards).crossingEdges, e.kind = .escrowed ∧ s ∈ e.to_ ∧
      e.from_ ∈ (placedAt legs payer shards).running i := by
  obtain ⟨consumer, hconsumer, hhome, edge, hedge, producer, hsource, hat⟩ := hfeeds
  obtain ⟨c, hc⟩ := getElem?_of_mem hconsumer
  have hpoff : shards producer.target ∉ coreShards legs shards payer := hat ▸ hoff
  have hmem : s ∈ (placedAt legs payer shards).running c \
      (placedAt legs payer shards).running edge.source := by
    rw [running_of_core hc hhome, running_of_leg hsource hpoff, Finset.mem_sdiff,
      Finset.mem_singleton]
    exact ⟨hs, fun heq => hpoff (heq ▸ hs)⟩
  have hcore : (placedAt legs payer shards).role c = .core := (role_core_iff hc).mpr hhome
  refine ⟨_, mem_crossingEdges.mpr ⟨c, consumer, hc, edge, hedge,
    crossing_eq_some.mpr ⟨producer, hsource, Finset.ne_empty_of_mem hmem, rfl⟩⟩, ?_, hmem, ?_⟩
  · simp [hcore]
  · rw [running_of_leg hi hoff, Finset.mem_singleton]
    exact hat

theorem no_escrow_off_core
    (hsources : ∀ leg ∈ legs, leg.role ≠ .core → leg.role ≠ .outbound → leg.edges = [])
    (he : e ∈ (placedAt legs payer shards).crossingEdges)
    (hkind : e.kind = .escrowed) (hs : s ∈ e.to_) : s ∈ coreShards legs shards payer := by
  obtain ⟨c, consumer, hc, edge, hedge, hcrossing⟩ := mem_crossingEdges.mp he
  obtain ⟨producer, hsource, -, rfl⟩ := crossing_eq_some.mp hcrossing
  have hc : legs[c]? = some consumer := hc
  have hrunning : s ∈ (placedAt legs payer shards).running c := (Finset.mem_sdiff.mp hs).1
  by_cases hhome : shards consumer.target ∈ coreShards legs shards payer
  · rwa [running_of_core hc hhome] at hrunning
  have hrole := role_of_off_core hc hhome
  have hcore : consumer.role ≠ .core := by
    rw [← hrole]
    exact fun h => hhome ((role_core_iff hc).mp h)
  have hsink : consumer.role ≠ .outbound := by
    intro h
    simp [hrole, h] at hkind
  rw [hsources consumer (mem_of_getElem? hc) hcore hsink] at hedge
  cases hedge

theorem covers_iff
    (hsources : ∀ leg ∈ legs, leg.role ≠ .core → leg.role ≠ .outbound → leg.edges = [])
    (hj : legs[j]? = some presenter) (hi : legs[i]? = some prover) :
    (starAt legs payer accounts shards).Covers j i ↔ ProofAtHand legs payer shards j i := by
  have hrunning : ∀ n, (starAt legs payer accounts shards).running n =
      (placedAt legs payer shards).running n := fun _ => rfl
  have hedges : (starAt legs payer accounts shards).edges =
      (placedAt legs payer shards).crossingEdges := rfl
  unfold Star.Covers
  simp only [hrunning, hedges]
  constructor
  · intro h presenter' prover' hj' hi'
    obtain rfl : presenter = presenter' := Option.some.inj (hj.symm.trans hj')
    obtain rfl : prover = prover' := Option.some.inj (hi.symm.trans hi')
    have hhome := h _ (home_mem_running hj)
    by_cases hpoff : shards prover.target ∈ coreShards legs shards payer
    · rw [running_of_core hi hpoff] at hhome
      refine .inr ⟨?_, .inl hpoff⟩
      rcases hhome with hcore | ⟨e, he, hkind, hs, -⟩
      · exact hcore
      · exact no_escrow_off_core hsources he hkind hs
    · rcases hhome with hsame | ⟨e, he, hkind, hs, hfrom⟩
      · rw [running_of_leg hi hpoff, Finset.mem_singleton] at hsame
        exact .inl hsame
      · have hcore := no_escrow_off_core hsources he hkind hs
        exact .inr ⟨hcore, .inr (feedsCore_of_arrival hi hpoff he hs hcore hfrom)⟩
  · intro h s hs
    rcases h presenter prover hj hi with hsame | ⟨hcore, hprover⟩
    · by_cases hpoff : shards prover.target ∈ coreShards legs shards payer
      · rw [running_of_core hj (hsame ▸ hpoff)] at hs
        exact .inl (by rwa [running_of_core hi hpoff])
      · rw [running_of_leg hj (hsame ▸ hpoff)] at hs
        exact .inl (by rwa [running_of_leg hi hpoff, ← hsame])
    · rw [running_of_core hj hcore] at hs
      by_cases hpoff : shards prover.target ∈ coreShards legs shards payer
      · exact .inl (by rwa [running_of_core hi hpoff])
      · exact .inr (arrival_of_feedsCore hi hpoff (hprover.resolve_left hpoff) hs)

end

/-- Every proof an accepted tree relies on is consumed where its prover ran, or where value
arrives from it, exactly where each prover shares its presenter's home or the presenter is
on the core's shards and the prover on them or feeding them. -/
theorem proofs_consumed_beside_provers_iff {H : Hasher} {V : Envelope} {a : Admitted}
    (h : admitIntents H V = .ok a) (payer : Address) (accounts : List Address)
    (shards : Address → ℕ) :
    (∀ j i, V.Relies j i → (starAt (legsOf a) payer accounts shards).Covers j i) ↔
      ∀ j i, V.Relies j i → ProofAtHand (legsOf a) payer shards j i := by
  have hsources : ∀ leg ∈ legsOf a, leg.role ≠ .core → leg.role ≠ .outbound → leg.edges = [] :=
    fun leg hleg hcore hsink => edges_of_source hleg hcore hsink
  refine forall₃_congr fun j i hrelies => ?_
  obtain ⟨hlt, hj⟩ := hrelies.before h
  obtain ⟨presenter, hpresenter, -⟩ := legsOf_getElem? (getElem?_eq_getElem hj)
  obtain ⟨prover, hprover, -⟩ := legsOf_getElem? (getElem?_eq_getElem (hlt.trans hj))
  exact covers_iff hsources hpresenter hprover

def payOutProving : MethodSignature :=
  { payOut with effects := payOut.effects ++ [.proves none .selfAddr] }

def rewriteForTill : MethodSignature :=
  { rewriteOwn with
    effects := rewriteOwn.effects ++
      [.requires none (.require (.claim (.literal (.address till.1))))] }

def provedPastTheCore : Envelope :=
  .calling [⟨till, "out", [], []⟩, ⟨shop, "set", [], [.node 0]⟩,
    ⟨payee, "in", [.value (.edge ⟨0, 0⟩) []], []⟩]
    [("out", payOutProving), ("set", rewriteForTill), ("in", payIn)]

theorem provedPastTheCore_relies : provedPastTheCore.Relies 1 0 := by
  have hrun : passes (interleave provedPastTheCore.intents) (fun s =>
      s.order[1]? = some (0, 1) &&
        (((s.flatOf[0]?).bind fun flat => flat[0]?) = some 0 : Bool)) = true := by decide
  obtain ⟨s, hs, h⟩ := passes_iff.mp hrun
  simp only [Bool.and_eq_true, decide_eq_true_eq] at h
  exact ⟨s, hs, 0, 1, _, _, h.1, rfl, rfl, .node 0, by simp, 0, 0, rfl, h.2⟩

/-- A tree over published methods, each node on its own shard: it divides, and the shop runs
on the till's proof where the till does not run and nothing escrowed arrives from it. -/
theorem proof_consumed_without_prover : provedPastTheCore.Gated ∧ ∃ admitted,
      admitIntents codedHasher provedPastTheCore = .ok admitted ∧
      ∃ star, star = starAt (legsOf admitted) ⟨2, .principal⟩ [⟨2, .principal⟩] Address.body ∧
        star.decomposes = true ∧ provedPastTheCore.Relies 1 0 ∧ ¬star.Covers 1 0 := by
  have hgated : provedPastTheCore.Gated := running_gated (by decide)
  have hrun : passes (admitIntents codedHasher provedPastTheCore) (fun admitted =>
      let star := starAt (legsOf admitted) ⟨2, .principal⟩ [⟨2, .principal⟩] Address.body
      star.decomposes && (2 ∈ star.running 1 && 2 ∉ star.running 0 &&
        star.edges.all fun e => e.kind ≠ .escrowed)) = true := by decide +kernel
  obtain ⟨admitted, hadmitted, h⟩ := passes_iff.mp hrun
  simp only [Bool.and_eq_true, all_eq_true, decide_eq_true_eq] at h
  obtain ⟨hdivides, ⟨hruns, hapart⟩, howed⟩ := h
  refine ⟨hgated, admitted, hadmitted, _, rfl, hdivides, provedPastTheCore_relies,
    fun hcovers => ?_⟩
  rcases hcovers 2 hruns with hbeside | ⟨e, he, hkind, -⟩
  · exact hapart hbeside
  · exact howed e he hkind

/-- On one shard the shop runs beside the till. -/
theorem proof_consumed_on_one_shard : ∃ admitted,
    admitIntents codedHasher provedPastTheCore = .ok admitted ∧ provedPastTheCore.Relies 1 0 ∧
    (starAt (legsOf admitted) ⟨2, .principal⟩ [⟨2, .principal⟩] fun _ => 0).Covers 1 0 := by
  have hrun : passes (admitIntents codedHasher provedPastTheCore) (fun _ => true) = true := by
    decide +kernel
  obtain ⟨admitted, hadmitted, -⟩ := passes_iff.mp hrun
  have hone : ∀ j i, provedPastTheCore.Relies j i →
      ProofAtHand (legsOf admitted) ⟨2, .principal⟩ (fun _ => 0) j i :=
    fun _ _ _ _ _ _ _ => .inl rfl
  exact ⟨admitted, hadmitted, provedPastTheCore_relies,
    (proofs_consumed_beside_provers_iff hadmitted _ _ _).mpr hone 1 0 provedPastTheCore_relies⟩

end HyperscaleVm.Effects.Placement

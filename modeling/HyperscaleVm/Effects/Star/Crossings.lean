import HyperscaleVm.Effects.Admission.Transaction
import HyperscaleVm.Effects.Star.Shape

/-!
# Who issues what cannot come back

A crossing is owed where its consumer is an outbound leg, whoever produced it.
-/

namespace HyperscaleVm.Effects.Placement
open Library Admission Publish List

section

variable {legs : List LegShape} {payer : Address} {accounts : List Address} {shards : Address → ℕ}
  {node : LegShape}

theorem home_mem_coreShards (hnode : node ∈ legs) (hdrawn : drawnRole legs shards node = .core) :
    shards node.target ∈ coreShards legs shards payer := by
  have hmem : shards node.target ∈
      ((legs.filter fun node => drawnRole legs shards node = .core).map fun node =>
        shards node.target).toFinset := by
    simp only [mem_toFinset, mem_map, mem_filter, decide_eq_true_eq]
    exact ⟨node, ⟨hnode, hdrawn⟩, rfl⟩
  unfold coreShards
  rw [if_neg fun h => Finset.ne_empty_of_mem hmem h.1]
  exact hmem

theorem exists_home_of_mem {s : ℕ} (hs : s ∈ coreShards legs shards payer) :
    ∃ node ∈ legs, shards node.target = s := by
  simp only [coreShards] at hs
  split at hs
  · rename_i h
    obtain rfl := Finset.mem_singleton.mp hs
    exact mem_map.mp h.2
  · simp only [mem_toFinset, mem_map, mem_filter, decide_eq_true_eq] at hs
    obtain ⟨node, ⟨hnode, -⟩, rfl⟩ := hs
    exact ⟨node, hnode, rfl⟩

variable {n : ℕ}

theorem role_of_getElem? (hn : legs[n]? = some node) : (placedAt legs payer shards).role n =
      if shards node.target ∈ coreShards legs shards payer then .core
      else drawnRole legs shards node := by
  simp [placedAt, Placed.role, roleAt, settle, hn]

theorem role_core_iff (hn : legs[n]? = some node) : (placedAt legs payer shards).role n = .core ↔
      shards node.target ∈ coreShards legs shards payer := by
  rw [role_of_getElem? hn]
  split
  · rename_i hmem
    simp [hmem]
  · rename_i hmem
    refine ⟨fun hdrawn => ?_, fun h => absurd h hmem⟩
    exact home_mem_coreShards (mem_of_getElem? hn) hdrawn

theorem role_of_off_core (hn : legs[n]? = some node)
    (hoff : shards node.target ∉ coreShards legs shards payer) :
    (placedAt legs payer shards).role n = node.role := by
  have hdrawn : drawnRole legs shards node ≠ .core :=
    fun h => hoff (home_mem_coreShards (mem_of_getElem? hn) h)
  rw [role_of_getElem? hn, if_neg hoff]
  unfold drawnRole at hdrawn ⊢
  split
  · rename_i h
    exact absurd (if_pos h) hdrawn
  rename_i h
  rw [if_neg h] at hdrawn
  split
  · rename_i h'
    exact absurd (if_pos h') hdrawn
  · rfl

theorem placedAt_core : (placedAt legs payer shards).core = coreShards legs shards payer := by
  have hzip : (settle legs shards payer).zip (homesOf legs shards) =
      legs.map fun node => ((if shards node.target ∈ coreShards legs shards payer then .core
        else drawnRole legs shards node : LegRole), shards node.target) := by
    simp only [settle, homesOf, zip_map']
  ext s
  simp only [placedAt, hzip, mem_toFinset, mem_map, mem_filter, decide_eq_true_eq]
  constructor
  · rintro ⟨p, ⟨⟨node, hnode, rfl⟩, hcore⟩, rfl⟩
    by_contra hoff
    exact hoff (home_mem_coreShards hnode (by simpa [hoff] using hcore))
  · intro hs
    obtain ⟨node, hnode, rfl⟩ := exists_home_of_mem hs
    exact ⟨_, ⟨⟨node, hnode, rfl⟩, if_pos hs⟩, rfl⟩

theorem homes_of_getElem? (hn : legs[n]? = some node) :
    (placedAt legs payer shards).homes[n]? = some (shards node.target) := by
  simp [placedAt, homesOf, hn]

theorem running_of_core (hn : legs[n]? = some node)
    (hmem : shards node.target ∈ coreShards legs shards payer) :
    (placedAt legs payer shards).running n = coreShards legs shards payer := by
  have hrole : roleAt (placedAt legs payer shards).roles n = .core := (role_core_iff hn).mpr hmem
  rw [Placed.running, runningAt, hrole, placedAt_core]

theorem running_of_leg (hn : legs[n]? = some node)
    (hoff : shards node.target ∉ coreShards legs shards payer) :
    (placedAt legs payer shards).running n = {shards node.target} := by
  have hrole : roleAt (placedAt legs payer shards).roles n ≠ .core :=
    fun h => hoff ((role_core_iff hn).mp h)
  rw [Placed.running, runningAt, homes_of_getElem? hn]
  split
  · rename_i h
    exact absurd h hrole
  all_goals rfl

theorem home_mem_running (hn : legs[n]? = some node) :
    shards node.target ∈ (placedAt legs payer shards).running n := by
  by_cases hmem : shards node.target ∈ coreShards legs shards payer
  · rwa [running_of_core hn hmem]
  · simp [running_of_leg hn hmem]

variable {e : CrossingEdge}

theorem mem_crossingEdges {P : Placed} :
    e ∈ P.crossingEdges ↔ ∃ consumer node, P.legs[consumer]? = some node ∧
      ∃ edge ∈ node.edges, P.crossing consumer node edge = some e := by
  simp only [Placed.crossingEdges, mem_insertionSort, mem_flatMap, mem_filterMap,
    Prod.exists, mem_zipIdx_iff_getElem?]
  constructor
  · rintro ⟨node, consumer, hnode, edge, hedge, he⟩
    exact ⟨consumer, node, hnode, edge, hedge, he⟩
  · rintro ⟨consumer, node, hnode, edge, hedge, he⟩
    exact ⟨node, consumer, hnode, edge, hedge, he⟩

theorem crossing_eq_some {consumer : ℕ} {edge : ValueEdge} :
    (placedAt legs payer shards).crossing consumer node edge = some e ↔
      ∃ producer, legs[edge.source]? = some producer ∧
        (placedAt legs payer shards).running consumer \
          (placedAt legs payer shards).running edge.source ≠ ∅ ∧
        e = ⟨edge.source, edge.output, consumer, shards producer.target,
          (placedAt legs payer shards).running consumer \
            (placedAt legs payer shards).running edge.source,
          ⟨producer.target, node.target, producer.intent, producer.local_, edge.output⟩,
          if (placedAt legs payer shards).role consumer = .outbound then .owed else .escrowed⟩ := by
  have hlegs : (placedAt legs payer shards).legs = legs := rfl
  unfold Placed.crossing
  rw [hlegs]
  cases hsource : legs[edge.source]? with
  | none => simp
  | some producer =>
    simp only [homes_of_getElem? hsource, Option.some.injEq, exists_eq_left']
    split
    · rename_i hempty
      simp [hempty]
    · rename_i hne
      simp only [Option.some.injEq, ne_eq, hne, not_false_eq_true, true_and]
      exact eq_comm

/-- No value edge joins a node off the core's shards to an outbound leg on another shard
off them. -/
def LegsFeedLegsAtHome (legs : List LegShape) (payer : Address) (shards : Address → ℕ) : Prop :=
  ∀ consumer ∈ legs, ∀ edge ∈ consumer.edges, ∀ producer, legs[edge.source]? = some producer →
    consumer.role = .outbound → shards consumer.target ∉ coreShards legs shards payer →
    shards producer.target ∉ coreShards legs shards payer →
    shards producer.target = shards consumer.target

theorem owed_off_core (he : e ∈ (placedAt legs payer shards).crossingEdges)
    (howed : e.kind = .owed) (hleg : (placedAt legs payer shards).role e.producer ≠ .core) :
    ¬LegsFeedLegsAtHome legs payer shards := by
  obtain ⟨consumer, node, hnode, edge, hedge, hcrossing⟩ := mem_crossingEdges.mp he
  obtain ⟨producer, hsource, hapart, rfl⟩ := crossing_eq_some.mp hcrossing
  have hnode : legs[consumer]? = some node := hnode
  have houtbound : (placedAt legs payer shards).role consumer = .outbound := by
    by_contra hne
    simp [hne] at howed
  have hoff : shards node.target ∉ coreShards legs shards payer := by
    intro hmem
    rw [(role_core_iff hnode).mpr hmem] at houtbound
    cases houtbound
  have hpoff : shards producer.target ∉ coreShards legs shards payer :=
    fun hmem => hleg ((role_core_iff hsource).mpr hmem)
  intro hhome
  have heq := hhome node (mem_of_getElem? hnode) edge hedge producer hsource
    ((role_of_off_core hnode hoff).symm.trans houtbound) hoff hpoff
  rw [running_of_leg hnode hoff, running_of_leg hsource hpoff, heq] at hapart
  exact hapart (by simp)

/-- In every placed shape what cannot come back is issued by the core and what a leg issues
is escrowed, exactly where no value edge joins two shards off the core to an outbound leg. -/
theorem irrevocable_value_leaves_core_iff (legs : List LegShape) (payer : Address)
    (accounts : List Address) (shards : Address → ℕ) :
    (∀ e ∈ (starAt legs payer accounts shards).edges,
      (e.kind = .owed → (starAt legs payer accounts shards).role e.producer = .core) ∧
      ((starAt legs payer accounts shards).role e.producer ≠ .core → e.kind = .escrowed)) ↔
    LegsFeedLegsAtHome legs payer shards := by
  have hrole : ∀ n, (starAt legs payer accounts shards).role n =
      (placedAt legs payer shards).role n := fun _ => rfl
  have hedges : (starAt legs payer accounts shards).edges =
      (placedAt legs payer shards).crossingEdges := rfl
  simp only [hrole, hedges]
  constructor
  · intro h consumer hconsumer edge hedge producer hsource houtbound hoff hpoff
    by_contra hne
    obtain ⟨c, hc⟩ := getElem?_of_mem hconsumer
    have hrunning : (placedAt legs payer shards).running c \
        (placedAt legs payer shards).running edge.source ≠ ∅ := by
      rw [running_of_leg hc hoff, running_of_leg hsource hpoff]
      exact Finset.ne_empty_of_mem (a := shards consumer.target)
        (by simpa using fun heq => hne heq.symm)
    have hmem := mem_crossingEdges.mpr ⟨c, consumer, hc, edge, hedge,
      crossing_eq_some.mpr ⟨producer, hsource, hrunning, rfl⟩⟩
    have howed := (h _ hmem).1 (by simp [(role_of_off_core hc hoff).trans houtbound])
    exact hpoff ((role_core_iff hsource).mp howed)
  · intro hhome e he
    have hcore : e.kind = .owed → (placedAt legs payer shards).role e.producer = .core := by
      intro howed
      by_contra hleg
      exact owed_off_core he howed hleg hhome
    refine ⟨hcore, fun hleg => ?_⟩
    cases hkind : e.kind with
    | escrowed => rfl
    | owed => exact absurd (hcore hkind) hleg

end

def legCoin : Address := ⟨7, .resource⟩

def payOut : MethodSignature :=
  { MethodSignature.empty with
    outputs := [.literal (.address legCoin)]
    effects := [.effect none (.point (selfChild VAULT (.single (.literal (.address legCoin)))))
      (.reserve (.literal (.u128 5))) (some (.literal (.address legCoin))) none]
    abi := [.handle 0 0] }

def rewriteOwn : MethodSignature :=
  { MethodSignature.empty with
    effects := [.effect none (.point (selfChild PACKAGE_SLOT_BASE .nil)) (.write .both) none none]
    abi := [.handle 0 0] }

def till : CallTarget := .numbered 1

def shop : CallTarget := .numbered 2

def payee : CallTarget := ⟨⟨3, .principal⟩, rfl⟩

def pastTheCore : Envelope :=
  .calling [⟨till, "out", [], []⟩, ⟨shop, "set", [], []⟩,
    ⟨payee, "in", [.value (.edge ⟨0, 0⟩) []], []⟩]
    [("out", payOut), ("set", rewriteOwn), ("in", payIn)]

/-- A tree over published methods, each node on its own shard: it divides, and the till, a
leg, issues the payee value nothing takes back. -/
theorem leg_issues_owed_value :
    pastTheCore.Gated ∧ ∃ admitted, admitIntents codedHasher pastTheCore = .ok admitted ∧
      ∃ star, star = starAt (legsOf admitted) ⟨2, .principal⟩ [⟨2, .principal⟩] Address.body ∧
        star.decomposes = true ∧
        ∃ e ∈ star.edges, e.kind = .owed ∧ star.role e.producer = .inbound := by
  have hgated : pastTheCore.Gated := running_gated (by decide)
  have hrun : passes (admitIntents codedHasher pastTheCore) (fun admitted =>
      let star := starAt (legsOf admitted) ⟨2, .principal⟩ [⟨2, .principal⟩] Address.body
      star.decomposes && star.edges.any fun e =>
        e.kind = .owed && star.role e.producer = .inbound) = true := by decide +kernel
  obtain ⟨admitted, hadmitted, h⟩ := passes_iff.mp hrun
  simp only [Bool.and_eq_true, any_eq_true, decide_eq_true_eq] at h
  exact ⟨hgated, admitted, hadmitted, _, rfl, h⟩

end HyperscaleVm.Effects.Placement

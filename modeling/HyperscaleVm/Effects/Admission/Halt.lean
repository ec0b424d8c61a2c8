import HyperscaleVm.Effects.Admission.Entries
import HyperscaleVm.Effects.Admission.Transaction

/-!
# Halted holders
(`effects/src/admission/inject.rs`, `effects/src/publish/declaration.rs`)

A reach into a holder's halt flag is held to the resource's `Halt` entry; a plain access
of the holder to its own slot is not. Where the two stand together the flag is the
authority's alone.
-/

namespace HyperscaleVm.Effects.Admission
open Library List Option
open Publish

namespace AdmittedNode

variable {H : Hasher} {S : Setting H} (n : AdmittedNode S)

def FlagWritesDemanded : Prop :=
  ∀ holder (resource : ResourceAddr), ∀ a ∈ n.judged.evaluated.ordered,
    a.effect.target = .point (haltFlag H holder resource.1) → a.effect.mode.kind ≠ .read →
      n.Demanded resource .halt

def ReachesHalt (resource : ResourceAddr) : Prop :=
  ∃ l guard target mode denomination, n.frame.fires l ∧
    l.clause = .effect guard target mode denomination (some .halt) ∧
    reachMeaning H n.frame.inputs l.bindings (some .halt) target = some (some ⟨.halt, resource⟩)

/-- Every plain clause that fires on a halt flag for more than a read stands beside a reach
under the entry, or beside a claim of the node's own that satisfies it. -/
def OwnFlagsReached : Prop :=
  ∀ l guard target mode denomination, n.frame.fires l →
    l.clause = .effect guard target mode denomination none → mode.isRead = false →
    ∀ holder (resource : ResourceAddr),
      target.meaning H n.frame.inputs l.bindings = some (.point (haltFlag H holder resource.1)) →
      n.ReachesHalt resource ∨ n.OwnClaimMeets resource .halt

variable {n} {resource : ResourceAddr}

theorem ReachesHalt.demanded (h : n.ReachesHalt resource) : n.Demanded resource .halt := by
  obtain ⟨l, guard, target, mode, denomination, hl, hc, hreach⟩ := h
  obtain ⟨a, ha, hd⟩ := access_of_fires n.parts.evaluated hl hc
  have hareach : a.reach = some ⟨.halt, resource⟩ :=
    some.inj (hd.reach_eq.symm.trans hreach)
  obtain ⟨entries, hmap, hinjected⟩ := bind_ok.mp n.parts.reachesFrom
  simp only [Pure.pure, Except.pure, Except.ok.injEq] at hinjected
  have hwanted := mem_wantedReaches.mpr ⟨a, n.parts.fencedFrom.kept a ha, hareach⟩
  obtain ⟨o, ho, hentry⟩ := exists_mem_right (mapM_ok.mp hmap) hwanted
  obtain ⟨bytes, hbytes, -⟩ := injectedEntry_ok hentry
  obtain ⟨rules, hrules, hhalt⟩ := bind_eq_some_iff.mp hbytes
  rw [hbytes, ← hhalt] at hentry
  refine n.demanded_of_entry (grantsOf_presented hrules) ho (fun i hi => ?_) hentry
  rw [n.parts.injected_eq, ← hinjected]
  exact mem_append_left _ (mem_append_left _ (mem_append_left _ hi))

theorem reachesHalt_of_injected {i : Injected} (hi : i ∈ n.judged.injected)
    (hhalt : i.behaviour = .halt) (hasks : ∃ rule, i.asks = .entry rule) :
    n.ReachesHalt i.resource := by
  rcases n.injected_source hi with h | h | h | h
  · obtain ⟨a, ha, hr⟩ := n.declared_of_reach h
    rw [hhalt] at hr
    obtain ⟨l, guard, target, mode, denomination, reach, hl, hd⟩ :=
      fires_of_access n.parts.evaluated ha
    have hreach := hd.reach_eq
    rw [hr] at hreach
    obtain rfl : reach = some .halt := by
      cases reach with
      | none => cases hreach
      | some behaviour => exact congrArg some (behaviour_of_reach hreach)
    exact ⟨l, guard, target, mode, denomination, hl, hd.clause_eq, hreach⟩
  · obtain ⟨rule, hrule⟩ := hasks
    rcases h with h | h | h
    · rw [hrule] at h
      cases h
    all_goals rw [hhalt] at h; cases h
  · have hb := behaviour_of_issuance n.parts.issuanceFrom i h
    rw [hhalt] at hb
    rcases hb with hb | hb <;> cases hb
  · rw [hhalt] at h
    cases h

theorem reachesHalt_of_flag (hH : H.Injective)
    (hgate : checkSignature n.resolved.signature = .ok ())
    {l : Firing} (hl : n.frame.fires l) {guard : Option Expr} {target : TargetExpr}
    {mode : ModeExpr} {denomination : Option Expr} {behaviour : GrantedBehaviour}
    (hc : l.clause = .effect guard target mode denomination (some behaviour)) {holder : Address}
    (ht : target.meaning H n.frame.inputs l.bindings =
      some (.point (haltFlag H holder resource.1))) : n.ReachesHalt resource := by
  have hmem : l.clause ∈ n.resolved.signature.flat := hl.mem_flat
  rw [hc] at hmem
  obtain ⟨i, hi⟩ := judgeAccess_of_mem (checkSignature_ok.mp hgate).2.1 hmem
  obtain ⟨o, s, material, rfl, -, hs, hmaterial⟩ := spelled_of_gate hH hi ht
  obtain rfl := fixed_of_meaning hs (by decide) (by decide) (by decide)
  -- the slot is the flag's, which holds no value, so the behaviour is not a recall
  have hvalueless := (flag_of_shape rfl (judgeAccess_cell hi).1).2.2
  obtain ⟨reached, slot, parts, keyed, hreached, -, hslot, hhead, -, hvalue⟩ :=
    judgeReach_ok (judgeAccess_reach hi)
  obtain rfl : behaviour = .halt := by
    cases behaviour with
    | halt => rfl
    | «recall» =>
      cases hreached
      simp [hvalueless] at hvalue
    | _ => cases hreached
  refine ⟨l, guard, _, mode, denomination, hl, hc, ?_⟩
  cases hslot
  cases material with
  | nil => cases hhead
  | cons e es =>
    cases hhead
    simp only [Exprs.meaning, bind_eq_bind, bind_eq_some_iff, some.injEq,
      List.cons.injEq] at hmaterial
    obtain ⟨v, hv, vs, -, rfl, -⟩ := hmaterial
    have hresource : asDenomination (.address resource.1) = .ok resource := by
      simp [asDenomination, asResource, Address.toResource?, resource.2]
    simp [reachMeaning, keyingResource, slotOf, Exprs.head?, Expr.resourceMeaning, hv, hresource,
      Except.toOption]

theorem flagWritesDemanded_iff (hH : H.Injective)
    (hgate : checkSignature n.resolved.signature = .ok ()) :
    n.FlagWritesDemanded ↔ n.OwnFlagsReached := by
  constructor
  · intro h l guard target mode denomination hl hc hread holder resource ht
    obtain ⟨a, ha, hd⟩ := access_of_fires n.parts.evaluated hl hc
    have htarget := some.inj (hd.target_eq.symm.trans ht)
    have hkind : a.effect.mode.kind ≠ .read :=
      fun hk => by simp [(read_of_meaning hd.mode_eq).mpr hk] at hread
    rcases h holder resource a ha htarget hkind with ⟨i, hin, rfl, hb, hasks, -⟩ | hown
    · exact .inl (reachesHalt_of_injected hin hb hasks)
    · exact .inr hown
  · intro h holder resource a ha htarget hkind
    obtain ⟨l, guard, target, mode, denomination, reach, hl, hd⟩ :=
      fires_of_access n.parts.evaluated ha
    have ht := hd.target_eq
    rw [htarget] at ht
    cases reach with
    | some behaviour => exact (reachesHalt_of_flag hH hgate hl hd.clause_eq ht).demanded
    | none =>
      have hread : mode.isRead = false := by
        rw [← Bool.not_eq_true, read_of_meaning hd.mode_eq]
        exact hkind
      rcases h l guard target mode denomination hl hd.clause_eq hread holder resource ht with h | h
      · exact h.demanded
      · exact .inr h

end AdmittedNode

def Haltable (H : Hasher) (resource : ResourceAddr) : Prop :=
  ∃ rules, GrantsOf H resource rules ∧ rules[GrantedBehaviour.halt]?.isSome = true

variable {H : Hasher} {resource : ResourceAddr}

theorem GrantsOf.restricted {rules : ResourceGrants}
    {behaviour : GrantedBehaviour} {sealed : RuleBytes} (h : GrantsOf H resource rules)
    (hstops : behaviour.restrictsMovement = true) (hsealed : rules[behaviour]? = some sealed) :
    resource.1.cls = .restricted := by
  obtain ⟨issuer, kind, material, rfl⟩ := h
  have hmem : behaviour ∈ rules.keys := by
    rw [Std.ExtTreeMap.mem_keys, Std.ExtTreeMap.mem_iff_isSome_getElem?, hsealed]
    rfl
  have hrestricts : rules.restrictsMovement = true := List.any_eq_true.mpr ⟨_, hmem, hstops⟩
  simp [grantingResourceAddress, ResourceGrants.addressClass, hrestricts]

theorem Haltable.restricted (h : Haltable H resource) : resource.1.cls = .restricted := by
  obtain ⟨rules, hgrants, hhalt⟩ := h
  obtain ⟨sealed, hsealed⟩ := isSome_iff_exists.mp hhalt
  exact hgrants.restricted rfl hsealed

section

variable {H : Hasher}

def unhalted (H : Hasher) (owner : Address) (resource : ResourceAddr) : Injected :=
  ⟨.require (.presence (.point (haltFlag H owner resource.1)) .absent), .unhalted, resource, .halt⟩

def Movements.Fenced (H : Hasher) (state : Movements) : Prop :=
  ∀ p ∈ state.fenced, unhalted H p.1 p.2 ∈ state.injected

structure Movements.Later (H : Hasher) (s t : Movements) : Prop where
  fenced : ∀ p ∈ s.fenced, p ∈ t.fenced
  keeps : s.Fenced H → t.Fenced H

theorem Movements.Later.refl (s : Movements) : s.Later H s := ⟨fun _ => id, id⟩

theorem Movements.Later.trans {s t u : Movements} (h : s.Later H t) (h' : t.Later H u) :
    s.Later H u :=
  ⟨fun p hp => h'.fenced p (h.fenced p hp), fun hs => h'.keeps (h.keeps hs)⟩

theorem fenceHalt_later (earned : Earned) (rules : ResourceGrants) (state : Movements) :
    state.Later H (fenceHalt H earned rules state) ∧ (rules[GrantedBehaviour.halt]?.isSome = true →
        (earned.owner, earned.resource) ∈ (fenceHalt H earned rules state).fenced) := by
  unfold fenceHalt
  split
  · refine ⟨⟨fun p hp => mem_append_left _ hp, fun hs p hp => ?_⟩, fun _ => by simp⟩
    rcases mem_append.mp hp with hp | hp
    · exact mem_append_left _ (hs p hp)
    · obtain rfl := mem_singleton.mp hp
      exact mem_append_right _ (mem_singleton.mpr rfl)
  · rename_i hnot
    refine ⟨.refl _, fun hhalt => ?_⟩
    simpa [hhalt] using hnot

variable {vaultDeposit : Bool} {node : ℕ} {earned : Earned} {records : List ResourceMeta}

theorem injectMovement_later (hH : H.Injective) {state state' : Movements}
    (h : injectMovement H (fromPresented H records) vaultDeposit node state earned = .ok state') :
    state.Later H state' ∧ (Haltable H earned.resource →
      (earned.owner, earned.resource) ∈ state'.fenced) := by
  unfold injectMovement at h
  split at h
  · split at h
    · cases h
    · rename_i hcls
      cases h
      exact ⟨.refl _, fun hhalt => absurd hhalt.restricted hcls⟩
  · rename_i rules hrules
    dsimp only at h
    obtain ⟨hlater, hfenced⟩ := fenceHalt_later (H := H) earned rules state
    have hhalts : Haltable H earned.resource → rules[GrantedBehaviour.halt]?.isSome = true := by
      rintro ⟨rules', hgrants, hhalt⟩
      rw [(grantsOf_presented hrules).unique hH hgrants]
      exact hhalt
    split at h
    · cases h
      exact ⟨hlater, fun hhalt => hfenced (hhalts hhalt)⟩
    · obtain ⟨rule, -, -, rfl⟩ := injectEntry_ok h
      exact ⟨⟨hlater.fenced, fun hs p hp => mem_append_left _ (hlater.keeps hs p hp)⟩,
        fun hhalt => hfenced (hhalts hhalt)⟩

theorem unhalted_of_movements (hH : H.Injective)
    {frame moved : Declaration} {injected : List Injected}
    (h : injectMovementRules H (fromPresented H records) frame vaultDeposit node =
      .ok (moved, injected)) (hearned : earned ∈ wantedMovements frame)
    (hhalt : Haltable H earned.resource) : unhalted H earned.owner earned.resource ∈ injected := by
  obtain ⟨state, hfold, h⟩ := bind_ok.mp h
  cases h
  obtain ⟨hlater, hmarks⟩ := foldlM_marks (R := Movements.Later H)
    (Q := fun (e : Earned) (s : Movements) => Haltable H e.resource →
      (e.owner, e.resource) ∈ s.fenced)
    Movements.Later.refl (fun _ _ _ => Movements.Later.trans)
    (fun e s t hst hs hhalt => hst.fenced _ (hs hhalt))
    (fun s t e _ hstep => injectMovement_later hH hstep) hfold
  exact hlater.keeps (by simp [Movements.Fenced]) _ (hmarks earned hearned hhalt)

def AdmittedNode.Moves {S : Setting H} (n : AdmittedNode S) (holder : Address)
    (resource : ResourceAddr) : Prop :=
  ∃ a ∈ n.judged.evaluated.ordered, a.reach = none ∧ a.holds = some resource ∧
    a.effect.target.owner = holder ∧ a.effect.mode.moves.isSome = true

def AdmittedNode.WritesFlag {S : Setting H} (n : AdmittedNode S) (holder : Address)
    (resource : ResourceAddr) : Prop :=
  ∃ a ∈ n.judged.evaluated.ordered, a.effect.target = .point (haltFlag H holder resource.1) ∧
    a.effect.mode.kind ≠ .read

variable {holder : Address} {resource : ResourceAddr} {S : Setting H}

theorem AdmittedNode.injected_of_movement {n : AdmittedNode S} {i : Injected}
    (hi : i ∈ n.parts.movements) : i ∈ n.judged.injected := by
  rw [n.parts.injected_eq]
  exact mem_append_left _ (mem_append_left _ (mem_append_right _ hi))

theorem AdmittedNode.unhalted_of_moves (hH : H.Injective) {n : AdmittedNode S}
    (hmoves : n.Moves holder resource)
    (hhalt : Haltable H resource) : unhalted H holder resource ∈ n.judged.injected := by
  obtain ⟨a, ha, hreach, hholds, howner, hmode⟩ := hmoves
  obtain ⟨moves, hmoves⟩ := isSome_iff_exists.mp hmode
  obtain ⟨behaviour, hb⟩ : ∃ behaviour, behaviour ∈ GrantedBehaviour.earnedBy moves := by
    cases moves <;> exact ⟨_, mem_cons_self⟩
  have hearned : (⟨holder, resource, behaviour⟩ : Earned) ∈ wantedMovements n.parts.fenced :=
    mem_wantedMovements.mpr ⟨a, n.parts.fencedFrom.kept a ha,
      mem_earnedOf.mpr ⟨hreach, howner, hholds, moves, hmoves, hb⟩⟩
  exact n.injected_of_movement (unhalted_of_movements hH n.parts.movementsFrom hearned hhalt)

variable {t : Transaction H} {σ σ' : Leaves}

theorem Transaction.Commits.flag_down (hH : H.Injective)
    (h : t.Commits σ σ') {n : AdmittedNode ⟨t.envelope, t.flatOf⟩} (hn : n ∈ t.nodes)
    (hmoves : n.Moves holder resource)
    (hhalt : Haltable H resource) : σ (haltFlag H holder resource.1) = none := by
  have hrequired := n.parts.required _ (AdmittedNode.unhalted_of_moves hH hmoves hhalt)
  obtain ⟨c, hc, hrule⟩ := t.required_presence hn hrequired
  simpa [metBy] using h.met c hc _ .absent hrule

theorem Transaction.Commits.writer_of_change (hH : H.Injective) (h : t.Commits σ σ')
    (hchange : σ' (haltFlag H holder resource.1) ≠ σ (haltFlag H holder resource.1)) :
    ∃ n ∈ t.nodes, n.WritesFlag holder resource := by
  rcases h.confined _ hchange with hkernel | ⟨a, ha, htarget, hkind⟩
  · exact (not_kernelCell hH (by decide) (by decide) hkernel).elim
  · obtain ⟨n, hn, hdeclared⟩ := t.access_of_declared ha hkind
    exact ⟨n, hn, a, hdeclared, htarget, hkind⟩

theorem flag_stays (hH : H.Injective) {σ : ℕ → Leaves} {txs : ℕ → Transaction H}
    (hrun : ∀ k, (txs k).Commits (σ k) (σ (k + 1))) {m k : ℕ}
    (hquiet : ∀ j, m ≤ j → j < m + k → ∀ n ∈ (txs j).nodes, ¬n.WritesFlag holder resource) :
    σ (m + k) (haltFlag H holder resource.1) = σ m (haltFlag H holder resource.1) := by
  induction k with
  | zero => rfl
  | succ k ih =>
    have hprior := ih fun j hj hlt => hquiet j hj (by omega)
    by_contra hne
    have hchange : σ (m + k + 1) (haltFlag H holder resource.1) ≠
        σ (m + k) (haltFlag H holder resource.1) := by
      rw [hprior]
      exact hne
    obtain ⟨n, hn, hwrites⟩ := (hrun (m + k)).writer_of_change hH hchange
    exact hquiet (m + k) (by omega) (by omega) n hn hwrites

/-- A node writes halt flags only under the entries of their resources exactly where its
plain writes of its own flags stand beside a reach or a claim that answers to the entry;
and in a run of such nodes a flag changes only under the entry, and while it is up no
access that reaches under no entry moves the resource, until a node the entry was demanded
of writes it. -/
theorem halt_binds_iff_own_flags_reached (hH : H.Injective) :
    (∀ (S : Setting H), S.toEnvelope.Gated → ∀ n : AdmittedNode S,
        n.FlagWritesDemanded ↔ n.OwnFlagsReached) ∧ ∀ (σ : ℕ → Leaves) (txs : ℕ → Transaction H),
        (∀ k, (txs k).Commits (σ k) (σ (k + 1))) →
        (∀ k, ∀ n ∈ (txs k).nodes, n.OwnFlagsReached) → ∀ holder (resource : ResourceAddr),
        (∀ k, σ (k + 1) (haltFlag H holder resource.1) ≠ σ k (haltFlag H holder resource.1) →
          ∃ n ∈ (txs k).nodes, n.WritesFlag holder resource ∧ n.Demanded resource .halt) ∧
        (Haltable H resource → ∀ m, σ m (haltFlag H holder resource.1) ≠ none → ∀ k, m ≤ k →
          (∃ j, m ≤ j ∧ j < k ∧ ∃ n ∈ (txs j).nodes,
            n.WritesFlag holder resource ∧ n.Demanded resource .halt) ∨
          ∀ n ∈ (txs k).nodes, ¬n.Moves holder resource) := by
  refine ⟨fun S hgated n => AdmittedNode.flagWritesDemanded_iff hH (n.gated hgated), ?_⟩
  intro σ txs hrun hmeets holder resource
  have hdemanded : ∀ k, ∀ n ∈ (txs k).nodes, n.WritesFlag holder resource →
      n.Demanded resource .halt := by
    rintro k n hn ⟨a, ha, htarget, hkind⟩
    exact (AdmittedNode.flagWritesDemanded_iff hH (n.gated (txs k).gated)).mpr (hmeets k n hn)
      holder resource a ha htarget hkind
  refine ⟨fun k hchange => ?_, fun hhalt m hup k hmk => ?_⟩
  · obtain ⟨n, hn, hwrites⟩ := (hrun k).writer_of_change hH hchange
    exact ⟨n, hn, hwrites, hdemanded k n hn hwrites⟩
  · by_cases hacted : ∃ j, m ≤ j ∧ j < k ∧ ∃ n ∈ (txs j).nodes, n.WritesFlag holder resource
    · obtain ⟨j, hmj, hjk, n, hn, hwrites⟩ := hacted
      exact .inl ⟨j, hmj, hjk, n, hn, hwrites, hdemanded j n hn hwrites⟩
    refine .inr fun n hn hmoves => hup ?_
    have hstays : σ (m + (k - m)) (haltFlag H holder resource.1) =
        σ m (haltFlag H holder resource.1) :=
      flag_stays hH hrun fun j hj hlt n hn hwrites =>
        hacted ⟨j, hj, by omega, n, hn, hwrites⟩
    rw [← hstays, show m + (k - m) = k by omega]
    exact (hrun k).flag_down hH hn hmoves hhalt

end

def haltAuthority : Address := ⟨2, .component⟩

def haltedCoin : ResourceMeta :=
  ⟨haltAuthority, .fungible, [.bytes [1]], (∅ : ResourceGrants).insert GrantedBehaviour.halt
    (.encoded (StoredRule.claim (Claim.ofSubject haltAuthority)))⟩

def writeFlag (holder : Expr) (reach : Option GrantedBehaviour) : MethodSignature :=
  { MethodSignature.empty with
    params := [.resource, .address]
    effects := [.effect none (.point (.childKey holder (.fixed HALT) (.single (.arg 0))))
      (.write .both) none reach] }

abbrev haltedResource : ResourceAddr := haltedCoin.address codedHasher

def flagEnvelope (target : CallTarget) (signature : MethodSignature) : Envelope :=
  { Envelope.calling [⟨target, "flag", [.literal (.address haltedResource.1),
      .literal (.address boxInstance)], []⟩] [("flag", signature)] with
    resources := [haltedCoin] }

def boxFlag : SubstateKey := haltFlag codedHasher boxInstance haltedResource.1

def flagLeaves (target : Address) (up : Bool) : Leaves := fun key =>
  if key = childKey codedHasher target CONFIG [] ∨ key = boxFlag ∧ up = true then some [] else none

theorem flag_transaction (target : CallTarget) (signature : MethodSignature) (reach : Option Reach)
    (hgate : checkSignature signature = .ok ())
    (hrun : passes (admitIntents codedHasher (flagEnvelope target signature)) (fun a =>
      a.injected = [[]] && (a.declaration.conditions.all fun c => c.rule =
          .require (.presence (.point (childKey codedHasher target.1 CONFIG [])) .present)) &&
        a.declaration.ordered.any fun access =>
          access.effect.target = .point boxFlag && access.effect.mode.kind = .write &&
            access.reach = reach) = true) (up down : Bool) :
    ∃ t : Transaction codedHasher, t.envelope = flagEnvelope target signature ∧
      t.Commits (flagLeaves target.1 up) (flagLeaves target.1 down) ∧
      ∃ n, t.nodes = [n] ∧ n.judged.injected = [] ∧
        ∃ a ∈ n.judged.evaluated.ordered, a.effect.target = .point boxFlag ∧
          a.effect.mode.kind = .write ∧ a.reach = reach := by
  obtain ⟨a, ha, h⟩ := passes_iff.mp hrun
  simp only [Bool.and_eq_true, decide_eq_true_eq, List.all_eq_true, List.any_eq_true] at h
  obtain ⟨⟨hinjected, hconditions⟩, access, haccess, ⟨htarget, hkind⟩, hreach⟩ := h
  have hgated : (flagEnvelope target signature).Gated := running_gated (by simpa using hgate)
  obtain ⟨t, hV, rfl⟩ := transaction_of_admitted hgated ha
  rw [t.injected_eq, t.traced.injected] at hinjected
  obtain ⟨n, hnodes, hn⟩ := map_eq_singleton_iff.mp hinjected
  refine ⟨t, hV, ⟨fun c hc key expect hrule => ?_, fun key hchange => ?_⟩, n, hnodes, hn, ?_⟩
  · have h := hconditions c hc
    rw [hrule] at h
    cases h
    simp [flagLeaves, metBy]
  · refine .inr ⟨access, haccess, ?_, by rw [hkind]; decide⟩
    rw [htarget]
    by_contra hne
    refine hchange ?_
    simp [flagLeaves, show key ≠ boxFlag from fun h => hne (h ▸ rfl)]
  · obtain ⟨m, hm, hdeclared⟩ := t.access_of_declared haccess (by rw [hkind]; decide)
    rw [hnodes] at hm
    obtain rfl := mem_singleton.mp hm
    exact ⟨access, hdeclared, htarget, hkind, hreach⟩

/-- The box clears its flag for the coin, which only the coin's authority may halt. -/
theorem holder_clears_own_flag : ∃ t : Transaction codedHasher,
      t.envelope = flagEnvelope ⟨boxInstance, rfl⟩ (writeFlag .selfAddr none) ∧
      t.Commits (flagLeaves boxInstance true) (flagLeaves boxInstance false) ∧
      flagLeaves boxInstance true boxFlag ≠ none ∧ flagLeaves boxInstance false boxFlag = none ∧
      Haltable codedHasher haltedResource ∧
      (∀ n ∈ t.nodes, ¬n.Demanded haltedResource .halt) ∧
      ∃ n ∈ t.nodes, ¬n.FlagWritesDemanded := by
  obtain ⟨t, hV, hcommits, n, hnodes, hinjected, a, ha, htarget, hkind, hreach⟩ :=
    flag_transaction ⟨boxInstance, rfl⟩ (writeFlag .selfAddr none) none (by decide)
      (by decide +kernel) true false
  have hself : boxInstance = n.call.target.1 := by
    rw [← (judgePrefixes_ok.mp n.parts.placed a ha).mp hreach, htarget]
    rfl
  have hundemanded : ¬n.Demanded haltedResource .halt := by
    rintro (⟨i, hi, -⟩ | ⟨rules, bytes, hrules, hbytes, hmet⟩)
    · rw [hinjected] at hi
      cases hi
    · obtain rfl := hrules.unique codedHasher_injective
        (⟨_, _, _, rfl⟩ : GrantsOf codedHasher haltedResource haltedCoin.rules)
      obtain rfl :
          RuleBytes.encoded (StoredRule.claim (Claim.ofSubject haltAuthority)) = bytes := by
        simpa [haltedCoin] using hbytes
      rw [← hself] at hmet
      exact absurd hmet (by decide)
  refine ⟨t, hV, hcommits, by simp [flagLeaves], ?_,
    ⟨_, ⟨_, _, _, rfl⟩, by simp [haltedCoin]⟩, ?_, n,
    by simp [hnodes], fun h => hundemanded (h boxInstance _ a ha htarget (by rw [hkind]; decide))⟩
  · have hapart : boxFlag ≠ childKey codedHasher boxInstance CONFIG [] := by decide +kernel
    simp [flagLeaves, hapart]
  · simpa [hnodes] using hundemanded

theorem authority_halts_box : ∃ (σ : ℕ → Leaves) (txs : ℕ → Transaction codedHasher),
      (∀ k, (txs k).Commits (σ k) (σ (k + 1))) ∧ σ 0 boxFlag = none ∧ σ 1 boxFlag ≠ none ∧
      (∃ n ∈ (txs 0).nodes, n.FlagWritesDemanded ∧
        n.WritesFlag boxInstance haltedResource ∧
        n.Demanded haltedResource .halt) ∧
      ∀ k, 1 ≤ k → (∃ j, 1 ≤ j ∧ j < k ∧ ∃ n ∈ (txs j).nodes,
          n.WritesFlag boxInstance haltedResource ∧
            n.Demanded haltedResource .halt) ∨
        ∀ n ∈ (txs k).nodes, ¬n.Moves boxInstance haltedResource := by
  obtain ⟨t, hV, hcommits, n, hnodes, hinjected, a, ha, htarget, hkind, hreach⟩ :=
    flag_transaction ⟨haltAuthority, rfl⟩ (writeFlag (.arg 1) (some .halt))
      (some ⟨.halt, haltedResource⟩) (by decide) (by decide +kernel) false true
  obtain ⟨e, hempty, hnone⟩ := empty_transaction codedHasher
  let txs : ℕ → Transaction codedHasher := fun k => if k = 0 then t else e
  let σ : ℕ → Leaves := fun k => flagLeaves haltAuthority (decide (k ≠ 0))
  have hrun : ∀ k, (txs k).Commits (σ k) (σ (k + 1)) := by
    rintro (_ | k)
    · exact hcommits
    · exact ⟨by simp [txs, hnone], fun key hchange => absurd rfl hchange⟩
  have hreached : n.OwnFlagsReached := by
    intro l guard target mode denomination hl hc
    obtain ⟨-, digest, package, name, hpackage, hmem⟩ := resolveCall_ok n.resolvedFrom
    rw [show (Setting.toEnvelope ⟨t.envelope, t.flatOf⟩ : Envelope) = flagEnvelope
      ⟨haltAuthority, rfl⟩ (writeFlag (.arg 1) (some .halt)) from hV] at hpackage
    cases hpackage
    have hsignature : n.resolved.signature = writeFlag (.arg 1) (some .halt) :=
      congrArg Prod.snd (mem_singleton.mp hmem)
    have hflat : l.clause ∈ Clause.effectsAll n.resolved.signature.effects := hl.mem_flat
    rw [hsignature, hc] at hflat
    simp [writeFlag, Clause.effectsAll, Clause.effects] at hflat
  have hmeets : ∀ k, ∀ m ∈ (txs k).nodes, m.OwnFlagsReached := by
    rintro (_ | k) m hm
    · obtain rfl : m = n := by simpa [txs, hnodes] using hm
      exact hreached
    · change m ∈ e.nodes at hm
      rw [hempty] at hm
      cases hm
  have hresults := halt_binds_iff_own_flags_reached codedHasher_injective
  have hflags := (hresults.1 _ t.gated n).mpr hreached
  have hapart : boxFlag ≠ childKey codedHasher haltAuthority CONFIG [] := by decide +kernel
  have hwrites : n.WritesFlag boxInstance haltedResource :=
    ⟨a, ha, htarget, by rw [hkind]; decide⟩
  have hup : σ 1 boxFlag ≠ none := by simp [σ, flagLeaves]
  refine ⟨σ, txs, hrun, by simp [σ, flagLeaves, hapart], hup,
    ⟨n, by simp [txs, hnodes], hflags, hwrites, ?_⟩, ?_⟩
  · exact hflags _ _ a ha htarget (by rw [hkind]; decide)
  · exact (hresults.2 σ txs hrun hmeets boxInstance _).2
      ⟨_, ⟨_, _, _, rfl⟩, by simp [haltedCoin]⟩ 1 hup

end HyperscaleVm.Effects.Admission

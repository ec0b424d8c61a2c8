import HyperscaleVm.Effects.Admission.Authority
import HyperscaleVm.Effects.Admission.Entries
import HyperscaleVm.Effects.Admission.Transaction
import HyperscaleVm.Effects.Publish.SlotContents

/-!
# Reaches (`effects/src/dsl.rs`, `effects/src/admission/node.rs`, `inject.rs`)
-/

namespace HyperscaleVm.Effects.Publish
open Option Library

def Numbered.KeepsValue (n : Numbered) : Prop :=
  n = .cell VAULT ∨ n = .entries NF_VAULT ∨
    (PACKAGE_SLOT_BASE ≤ n.slot ∧ n.slot < KERNEL_SLOT_BASE)

def Numbered.at_ (point : Bool) (slot : SlotId) : Numbered :=
  if point then .cell slot else .entries slot

section

variable {H : Hasher} {E : EvalInputs} {ρ : List Value} {material : Exprs} {slot : SlotRef}

theorem collectionMeaning_eq_some {owner : Address} {c : ℕ}
    (h : collectionMeaning H E ρ owner slot material = some c) :
    ∃ s parts, slot.meaning H E ρ false = some s ∧ material.meaning H E ρ = some parts ∧
      c = H.collection owner s parts := by
  simp only [collectionMeaning, do_some, some.injEq] at h
  obtain ⟨s, hs, parts, hparts, rfl⟩ := h
  exact ⟨s, parts, hs, hparts, rfl⟩

variable {target : TargetExpr}

theorem slotted_meaning {t : EffectTarget} (hslot : slotOf target = some (slot, material))
    (ht : target.meaning H E ρ = some t) : ∃ s parts, slot.meaning H E ρ target.isPoint = some s ∧
      material.meaning H E ρ = some parts ∧
      Contents.of t = (Numbered.at_ target.isPoint s).contents H t.owner parts := by
  cases target with
  | point key =>
    cases key with
    | childKey owner slot' material' =>
      cases hslot
      obtain ⟨o, s, parts, -, hs, hparts, rfl⟩ := childTarget_meaning.mp ht
      exact ⟨s, parts, hs, hparts, rfl⟩
    | _ => cases hslot
  | entry owner collection material' order =>
    cases hslot
    simp only [TargetExpr.meaning, do_some, some.injEq] at ht
    obtain ⟨-, -, o, -, c, hc, -, -, -, -, rfl⟩ := ht
    obtain ⟨s, parts, hs, hparts, rfl⟩ := collectionMeaning_eq_some hc
    exact ⟨s, parts, hs, hparts, rfl⟩
  | range owner collection material' lo hi cap =>
    cases hslot
    simp only [TargetExpr.meaning, do_some, some.injEq] at ht
    obtain ⟨-, -, o, -, c, hc, -, -, -, -, -, -, -, -, -, -, -, -, -, -, rfl⟩ := ht
    obtain ⟨s, parts, hs, hparts, rfl⟩ := collectionMeaning_eq_some hc
    exact ⟨s, parts, hs, hparts, rfl⟩

theorem resourceMeaning_eq_some {expr : Expr} {resource : ResourceAddr}
    (h : expr.resourceMeaning H E ρ = some resource) :
    expr.meaning H E ρ = some (.address resource.1) := by
  simp only [Expr.resourceMeaning, do_some] at h
  obtain ⟨v, hv, h⟩ := h
  rw [hv]
  cases v with
  | address a =>
    simp only [asDenomination, asResource] at h
    split at h
    · rename_i r hr
      cases h
      simp only [Address.toResource?] at hr
      split at hr
      · cases hr
        rfl
      · cases hr
    · cases h
  | _ => cases h

theorem keyed_of_reach {behaviour : GrantedBehaviour} {reach : Reach}
    (h : reachMeaning H E ρ (some behaviour) target = some (some reach)) :
    ∃ slot keyed rest, slotOf target = some (slot, .cons keyed rest) ∧
      keyed.resourceMeaning H E ρ = some reach.resource := by
  unfold reachMeaning at h
  dsimp only at h
  split at h
  · cases h
  rename_i keyed hkeyed
  simp only [do_some, some.injEq] at h
  obtain ⟨resource, hresource, rfl⟩ := h
  obtain ⟨⟨slot, material⟩, hslot, hhead⟩ := Option.bind_eq_some_iff.mp hkeyed
  cases material with
  | nil => cases hhead
  | cons first rest =>
    cases hhead
    exact ⟨slot, keyed, rest, hslot, hresource⟩

variable {mode : ModeExpr}

theorem moves_of_meaning {m : Mode} (h : mode.meaning H E ρ = some m) : m.moves = mode.moves := by
  cases mode with
  | reserve amount =>
    simp only [ModeExpr.meaning, do_some, some.injEq] at h
    obtain ⟨_, -, n, -, rfl⟩ := h
    rfl
  | _ =>
    cases h
    rfl

theorem keepsValue_of_reached {point : Bool} {named slot : ℕ}
    (h : reachableSlot point named = .ok slot) : (Numbered.at_ point slot).KeepsValue := by
  simp only [reachableSlot] at h
  split_ifs at h with hwide hband hbelow hpoint hvault hnf
  · cases h
    have hbelow : named < KERNEL_SLOT_BASE := by simpa using hbelow
    cases point <;> exact .inr (.inr ⟨hband, hbelow⟩)
  · cases h
    obtain rfl : named = VAULT := by simpa using hvault
    exact .inl (by simp [Numbered.at_, hpoint])
  · cases h
    obtain rfl : named = NF_VAULT := by simpa using hnf
    exact .inr (.inl (by simp [Numbered.at_, hpoint]))

theorem keepsValue_of_shape {i : ℕ} {held : Expr} {requires : Option Presence} {slot : SlotId}
    (hslot : slotOf target = some (.fixed slot, material))
    (h : protocolShape i target mode (some held) requires = .ok ()) :
    (Numbered.at_ target.isPoint slot).KeepsValue := by
  unfold protocolShape at h
  rw [hslot] at h
  dsimp only at h
  split_ifs at h with hkernel hpackage
  · have hband : PACKAGE_SLOT_BASE ≤ slot ∧ slot < KERNEL_SLOT_BASE :=
      ⟨hpackage, Nat.lt_of_not_le hkernel⟩
    cases target.isPoint <;> exact .inr (.inr hband)
  · simp only [vocabularyShape] at h
    -- every protocol cell but the two value is kept at refuses a denomination
    split_ifs at h with hvault hnf
    · simp only [Library.require_ok, Bool.and_eq_true] at h
      exact .inl (by simp [Numbered.at_, h.1, hvault])
    · simp only [Library.require_ok, Bool.and_eq_true, Bool.not_eq_true'] at h
      exact .inr (.inl (by simp [Numbered.at_, h.1.1, hnf]))
    all_goals simp at h

end

/-- The cell an access under a reach names: a holder's flag for the resource, or a holding of
the resource at a slot value may be kept at, which the access only takes from. -/
def ReachesCell (H : Hasher) (a : DeclaredAccess) (reach : Reach) : Prop :=
  match reach.behaviour with
  | .halt => a.holds = none ∧
      a.effect.target = .point (haltFlag H a.effect.target.owner reach.resource.1)
  | .recall => a.effect.mode.moves = some .out ∧ a.holds = some reach.resource ∧
      ∃ (n : Numbered) (parts : List Value), n.KeepsValue ∧ Contents.of a.effect.target =
        n.contents H a.effect.target.owner (.address reach.resource.1 :: parts)
  | .mint | .burn | .withdraw | .deposit => False

theorem reachesCell_of_gate {H : Hasher} {E : EvalInputs} {signature : MethodSignature}
    (hgate : checkSignature signature = .ok ()) {l : Firing}
    (hl : Fires H E signature.effects l) {guard : Option Expr} {target : TargetExpr}
    {mode : ModeExpr} {denomination : Option Expr} {behaviour : Option GrantedBehaviour}
    {a : DeclaredAccess}
    (hd : l.clause.Declares H E l.bindings guard target mode denomination behaviour a)
    {reach : Reach} (hr : a.reach = some reach) : ReachesCell H a reach := by
  have hreach := hd.reach_eq
  rw [hr] at hreach
  cases behaviour with
  | none => cases hreach
  | some behaviour =>
    obtain rfl := Admission.AdmittedNode.behaviour_of_reach hreach
    have hmem : l.clause ∈ signature.flat := hl.mem_flat
    rw [hd.clause_eq] at hmem
    obtain ⟨i, hi⟩ := judgeAccess_of_mem (checkSignature_ok.mp hgate).2.1 hmem
    obtain ⟨reached, slot', material, _, hreached, -, hslot', -, hhalt, hvalue⟩ :=
      judgeReach_ok (judgeAccess_reach hi)
    obtain ⟨slot, keyed, rest, hslot, hkeyed⟩ := keyed_of_reach hreach
    obtain ⟨rfl, rfl⟩ : slot = slot' ∧ Exprs.cons keyed rest = material := by
      simpa [hslot] using hslot'
    obtain ⟨s, parts, hs, hparts, hcontents⟩ := slotted_meaning hslot hd.target_eq
    -- the first part of the evaluated material is the resource itself
    simp only [Exprs.meaning, resourceMeaning_eq_some hkeyed, bind_eq_bind,
      bind_some, Option.bind_eq_some_iff, some.injEq] at hparts
    obtain ⟨parts, hrest, rfl⟩ := hparts
    unfold ReachesCell
    cases hb : reach.behaviour with
    | halt =>
      rw [hb] at hreached
      cases hreached
      cases slot with
      | reached named => simp [SlotRef.isFixed] at hhalt
      | fixed slot =>
        obtain rfl : slot = HALT := by simpa [SlotRef.isFixed] using hhalt
        obtain ⟨hpoint, hone, rfl⟩ := flag_of_shape hslot (judgeAccess_cell hi).1
        cases hs
        rw [hpoint] at hcontents
        obtain rfl : rest = .nil := by
          cases rest with
          | nil => rfl
          | cons e es => simp [Exprs.toList] at hone
        cases hrest
        refine ⟨(Option.some.inj hd.holds_eq).symm, ?_⟩
        cases ht : a.effect.target with
        | point key =>
          rw [ht] at hcontents
          exact congrArg EffectTarget.point (Contents.leaf.inj hcontents)
        | _ =>
          rw [ht] at hcontents
          cases hcontents
    | «recall» =>
      rw [hb] at hreached
      cases hreached
      obtain ⟨hden, hmoves⟩ := hvalue rfl
      obtain ⟨held, rfl⟩ := Option.isSome_iff_exists.mp hden
      obtain ⟨hshape, hkeys⟩ := judgeAccess_cell hi
      obtain rfl : keyed = held := by simpa [hslot, Exprs.head?] using hkeys held rfl
      refine ⟨(moves_of_meaning hd.mode_eq).trans hmoves, ?_, _, parts, ?_, hcontents⟩
      · have hholds := hd.holds_eq
        simp only [holdsMeaning, hkeyed, bind_eq_bind, bind_some,
          some.injEq] at hholds
        exact hholds.symm
      · cases slot with
        | fixed slot =>
          cases hs
          exact keepsValue_of_shape hslot hshape
        | reached named =>
          simp only [SlotRef.meaning, do_some] at hs
          obtain ⟨v, -, slot, -, hs⟩ := hs
          cases hok : reachableSlot target.isPoint slot with
          | error e => simp [hok, Except.toOption] at hs
          | ok slot' =>
            simp only [hok, Except.toOption, some.injEq] at hs
            exact hs ▸ keepsValue_of_reached hok
    | _ =>
      rw [hb] at hreached
      cases hreached

end HyperscaleVm.Effects.Publish

namespace HyperscaleVm.Effects.Admission
open Library (bind_ok)
open Publish

def Within (d : Declaration) (prefix_ : Address) : Prop :=
  ∀ a ∈ d.ordered, a.reach = none → a.effect.target.owner = prefix_

section

variable {H : Hasher} {prefix_ : Address} {d d' : Declaration} {target : EffectTarget}

theorem Within.read (h : Within d prefix_) (ht : target.owner = prefix_) :
    Within { d with ordered := d.ordered ++ [⟨⟨target, .read⟩, none, none, none⟩] } prefix_ := by
  intro a ha hr
  rcases List.mem_append.mp ha with ha | ha
  · exact h a ha hr
  · obtain rfl := List.mem_singleton.mp ha
    exact ht

theorem Within.declareRead (h : Within d prefix_)
    (ht : target.owner = prefix_) : Within (declareRead d target) prefix_ := by
  unfold Admission.declareRead
  dsimp only
  split
  · split
    · exact h.read ht
    · exact h
  · exact h

theorem Within.fence {target : CallTarget} {rule : Option (Rule JudgedLeaf)}
    (h : Within d target.1) (hf : fence H target d = .ok (d', rule)) : Within d' target.1 := by
  unfold Admission.fence at hf
  split at hf
  · cases hf
    exact h
  dsimp only at hf
  split at hf
  · cases hf
    exact h
  split at hf
  · cases hf
  rename_i set moved _
  cases hf
  cases moved with
  | true => exact h.read rfl
  | false => exact h

theorem owner_holdingTarget (owner : Address) (badge : ResourceAddr) (holding : Holding) :
    (holdingTarget H owner badge holding).owner = owner := by
  cases holding <;> rfl

theorem Within.moverReads (h : Within d prefix_) (rule : StoredRule) :
    Within ((moverReads H prefix_ rule).foldl Admission.declareRead d) prefix_ := by
  have howned : ∀ t ∈ Admission.moverReads H prefix_ rule, t.owner = prefix_ := by
    intro t ht
    obtain ⟨leaf, -, hleaf⟩ := List.mem_filterMap.mp ht
    cases leaf with
    | held badge holding =>
      cases hleaf
      exact owner_holdingTarget _ _ _
    | claim claim => cases hleaf
  generalize Admission.moverReads H prefix_ rule = targets at howned
  induction targets generalizing d with
  | nil => exact h
  | cons t ts ih =>
    exact ih (h.declareRead (howned t List.mem_cons_self))
      fun t' ht' => howned t' (List.mem_cons_of_mem _ ht')

variable {grants : PresentedGrants} {vaultDeposit : Bool} {node : ℕ}

theorem Within.injectMovement
    {state state' : Movements} {earned : Earned} (h : Within state.frame prefix_)
    (howner : earned.owner = prefix_)
    (hstep : injectMovement H grants vaultDeposit node state earned = .ok state') :
    Within state'.frame prefix_ := by
  subst howner
  have hfence : ∀ rules, Within (fenceHalt H earned rules state).frame earned.owner := by
    intro rules
    unfold fenceHalt
    split
    · exact h.declareRead rfl
    · exact h
  unfold Admission.injectMovement at hstep
  split at hstep
  · split at hstep
    · cases hstep
    · cases hstep
      exact h
  · rename_i rules _
    dsimp only at hstep
    split at hstep
    · cases hstep
      exact hfence rules
    unfold injectEntry at hstep
    split at hstep
    · cases hstep
    · cases hstep
      exact hfence rules
    · split at hstep
      · cases hstep
      dsimp only at hstep
      split at hstep
      · cases hstep
      · cases hstep
        exact (hfence rules).moverReads _

theorem Within.injectMovementRules {injected : List Injected} (h : Within d prefix_)
    (hm : injectMovementRules H grants d vaultDeposit node = .ok (d', injected)) :
    Within d' prefix_ := by
  obtain ⟨state, hfold, hm⟩ := bind_ok.mp hm
  cases hm
  have hmarks := Library.foldlM_marks
    (R := fun s t : Movements => Within s.frame prefix_ → Within t.frame prefix_)
    (Q := fun _ _ => True) (fun _ => id) (fun _ _ _ hst htu hs => htu (hst hs))
    (fun _ _ _ _ => id) (fun s t earned hearned hstep => ⟨fun hs => ?_, trivial⟩) hfold
  · exact hmarks.1 h
  · obtain ⟨a, ha, hmem⟩ := mem_wantedMovements.mp hearned
    obtain ⟨hreach, howner, -⟩ := mem_earnedOf.mp hmem
    exact hs.injectMovement (howner.symm.trans (h a ha hreach)) hstep

end

def EntryAnswered (H : Hasher) (reach : Reach) (actor : Address)
    (asked : Rule JudgedLeaf → Prop) : Prop :=
  ∃ rules bytes rule, GrantsOf H reach.resource rules ∧
    rules[reach.behaviour]? = some bytes ∧ bytes.decode = some rule ∧
    ((∃ own claims, Claim.ofAddress actor = some own ∧ rule.claimsOnly = some claims ∧
        claims.satisfiedBy [own] = true) ∨
      ∃ judged, judgedClaims rule = some judged ∧ asked judged)

variable {behaviour : GrantedBehaviour} {bytes : RuleBytes} {speaker : Option Claim}

theorem demanded_none (h : behaviour.demanded bytes speaker = some none) :
    ∃ rule own claims, bytes.decode = some rule ∧ speaker = some own ∧
      rule.claimsOnly = some claims ∧ claims.satisfiedBy [own] = true := by
  unfold GrantedBehaviour.demanded at h
  split at h
  · cases h
  rename_i rule hrule
  cases speaker with
  | none => simp at h
  | some own =>
    cases hclaims : rule.claimsOnly with
    | none => simp [hclaims] at h
    | some claims =>
      simp only [hclaims, Bool.and_eq_true, ite_eq_left_iff, reduceCtorEq, imp_false,
        not_not, Option.some.injEq] at h
      exact ⟨rule, own, claims, hrule, rfl, hclaims, h.2⟩

theorem demanded_some
    {rule : StoredRule} (h : behaviour.demanded bytes speaker = some (some rule)) :
    bytes.decode = some rule := by
  unfold GrantedBehaviour.demanded at h
  split at h
  · cases h
  rename_i rule' hrule
  have hsame : ∀ met : Bool,
      (if met = true then some none else some (some rule')) = some (some rule) → rule' = rule := by
    intro met hmet
    cases met with
    | true => cases hmet
    | false => simpa using hmet
  rw [hrule, hsame _ h]

namespace AdmittedNode

variable {H : Hasher} {S : Setting H} (n : AdmittedNode S)

theorem frame_within : Within n.judged.frame n.call.target.1 := by
  have hevaluated : Within n.judged.evaluated n.call.target.1 := fun a ha =>
    (judgePrefixes_ok.mp n.parts.placed a ha).mp
  have hmoved := (hevaluated.fence n.parts.fenceFrom).injectMovementRules n.parts.movementsFrom
  intro a ha
  rw [n.parts.ordered] at ha
  exact hmoved a ha

variable {a : DeclaredAccess} {reach : Reach}

theorem declared_of_frame (ha : a ∈ n.judged.frame.ordered)
    (hr : a.reach = some reach) : a ∈ n.judged.evaluated.ordered := by
  rcases n.parts.grown.added a ha with h | ⟨-, -, h⟩
  · exact h
  · rw [hr] at h
    cases h

theorem entryAnswered (ha : a ∈ n.judged.evaluated.ordered) (hr : a.reach = some reach) :
    EntryAnswered H reach n.call.target.1 (· ∈ n.judged.frame.required) := by
  obtain ⟨entries, hmap, hinjected⟩ := bind_ok.mp n.parts.reachesFrom
  simp only [Pure.pure, Except.pure, Except.ok.injEq] at hinjected
  have hwanted := mem_wantedReaches.mpr ⟨a, n.parts.fencedFrom.kept a ha, hr⟩
  obtain ⟨o, ho, hentry⟩ := Library.exists_mem_right (Library.mapM_ok.mp hmap) hwanted
  obtain ⟨bytes, hbytes, hanswer⟩ := injectedEntry_ok hentry
  obtain ⟨rules, hrules, hbytes⟩ := Option.bind_eq_some_iff.mp hbytes
  rcases hanswer with ⟨-, hmet⟩ | ⟨judged, rule, rfl, hdemanded, hjudged⟩
  · obtain ⟨rule, own, claims, hrule, hown, hclaims, hsatisfied⟩ := demanded_none hmet
    exact ⟨rules, bytes, rule, grantsOf_presented hrules, hbytes, hrule,
      .inl ⟨own, claims, hown, hclaims, hsatisfied⟩⟩
  · refine ⟨rules, bytes, rule, grantsOf_presented hrules, hbytes, demanded_some hdemanded,
      .inr ⟨judged, hjudged, ?_⟩⟩
    refine n.parts.required ⟨judged, .entry rule, reach.resource, reach.behaviour⟩ ?_
    rw [n.parts.injected_eq, ← hinjected]
    refine List.mem_append_left _ (List.mem_append_left _ (List.mem_append_left _ ?_))
    exact List.mem_filterMap.mpr ⟨_, ho, rfl⟩

end AdmittedNode

def Admitted.Asks (a : Admitted) (i : ℕ) (call : NodeCall) (rule : Rule JudgedLeaf) : Prop :=
  rule ∈ call.requires ∨ (⟨rule, some i⟩ : Condition) ∈ a.declaration.conditions

section

variable {H : Hasher} {N : IntentHasher} {tree : IntentTree} {identity : ℕ}
  {chain : ChainRecords} {ruleOf : List ℕ → Option StoredRule} {a : Admitted}

structure NodeAt (t : AdmittedTree H N tree identity chain ruleOf a) (i : ℕ)
    (frame : List DeclaredAccess) (n : AdmittedNode t.setting) : Prop where
  frame_eq : n.judged.frame.ordered = frame
  target : ∀ call, a.calls[i]? = some call → call.target = n.call.target.1
  asks : ∀ call, a.calls[i]? = some call → ∀ rule ∈ n.judged.frame.required, a.Asks i call rule

theorem AdmittedTree.exists_node (t : AdmittedTree H N tree identity chain ruleOf a) {i : ℕ}
    {frame : List DeclaredAccess} (hframe : a.frames[i]? = some frame) :
    ∃ n : AdmittedNode t.setting, NodeAt t i frame n := by
  obtain ⟨nodes, htraced⟩ := lowerAll_traces t.walk.walkedFrom
  rw [t.frames, t.walk.frames, htraced.frames, List.getElem?_map, Option.map_eq_some_iff] at hframe
  obtain ⟨n, hn, hframe⟩ := hframe
  have hcalls : a.calls = t.walk.walked.calls := t.calls.trans t.walk.calls
  refine ⟨n, hframe, fun call hcall => ?_, fun call hcall rule hrule => ?_⟩
  · have htarget := congrArg (fun l : List Address => l[i]?) htraced.targets
    rw [hcalls] at hcall
    simpa [List.getElem?_map, hcall, hn] using htarget
  · have hrequires := congrArg (fun l : List (List (Rule JudgedLeaf)) => l[i]?) htraced.requires
    rw [hcalls] at hcall
    simp only [List.getElem?_map, hcall, hn, Option.map_some, Option.some.injEq] at hrequires
    obtain ⟨c, hc, rfl⟩ := List.mem_map.mp hrule
    by_cases hstage : JudgedLeaf.stage c.rule = .atMaterialization
    · have hfiled := htraced.conditions n (List.mem_of_getElem? hn) c hc hstage
      rw [htraced.indexed i n hn] at hfiled
      refine .inr ?_
      rw [t.conditions]
      exact (signIns_grown t.walk.signed).conditions _ hfiled
    · refine .inl ?_
      rw [hrequires]
      exact List.mem_map.mpr ⟨c, List.mem_filter.mpr ⟨hc, by simpa using hstage⟩, rfl⟩

theorem AdmittedTree.reachesCell (hgated : chain.Gated)
    (t : AdmittedTree H N tree identity chain ruleOf a) (n : AdmittedNode t.setting)
    {access : DeclaredAccess} (ha : access ∈ n.judged.evaluated.ordered) {reach : Reach}
    (hr : access.reach = some reach) : ReachesCell H access reach := by
  obtain ⟨l, guard, target, mode, denomination, behaviour, hl, hd⟩ :=
    fires_of_access n.parts.evaluated ha
  have hgate : t.setting.toEnvelope.Gated := hgated
  exact reachesCell_of_gate (n.gated hgate) hl hd hr

/-- Every access of an accepted tree outside its node's own prefix reaches under an entry of
the resource its cell is keyed by first, and the node answers to that entry: by its own
claim, or by a condition it must meet. Under its own prefix a node never reaches. -/
theorem foreign_reach_is_authorised (hgated : chain.Gated)
    (h : admitTree H N tree identity chain ruleOf = .ok a) {i : ℕ} {call : NodeCall}
    {frame : List DeclaredAccess} (hcall : a.calls[i]? = some call)
    (hframe : a.frames[i]? = some frame) :
    ∀ access ∈ frame, (access.reach = none ↔ access.effect.target.owner = call.target) ∧
      ∀ reach, access.reach = some reach →
        ReachesCell H access reach ∧ EntryAnswered H reach call.target (a.Asks i call) := by
  intro access haccess
  obtain ⟨t⟩ := admitTree_ok h
  obtain ⟨n, hn⟩ := t.exists_node hframe
  rw [← hn.frame_eq] at haccess
  rw [hn.target call hcall]
  refine ⟨⟨n.frame_within access haccess, fun howner => ?_⟩, fun reach hr => ?_⟩
  · by_contra hsome
    obtain ⟨reach, hr⟩ := Option.ne_none_iff_exists'.mp hsome
    have hdeclared := n.declared_of_frame haccess hr
    exact hsome ((judgePrefixes_ok.mp n.parts.placed access hdeclared).mpr howner)
  · have hdeclared := n.declared_of_frame haccess hr
    refine ⟨t.reachesCell hgated n hdeclared hr, ?_⟩
    obtain ⟨rules, bytes, rule, hrules, hbytes, hrule, hanswer⟩ := n.entryAnswered hdeclared hr
    refine ⟨rules, bytes, rule, hrules, hbytes, hrule, hanswer.imp id ?_⟩
    rintro ⟨judged, hjudged, hrequired⟩
    exact ⟨judged, hjudged, hn.asks call hcall judged hrequired⟩

end

def recaller : CallTarget := .numbered 2

def purse : CallTarget := .numbered 4

def recalledCoin : ResourceMeta :=
  ⟨recaller.1, .fungible, [.bytes [1]], (∅ : ResourceGrants).insert GrantedBehaviour.recall
    (.encoded (StoredRule.claim (Claim.ofSubject recaller.1)))⟩

def coin : ResourceAddr := recalledCoin.address codedHasher

def takeBack : MethodSignature :=
  { MethodSignature.empty with
    params := [.resource, .address, .u64]
    outputs := [.arg 0]
    effects := [.effect none (.point (.childKey (.arg 1) (.reached (.arg 2)) (.single (.arg 0))))
      (.delta .out) (some (.arg 0)) (some .recall)]
    abi := [.handle 0 0] }

def recallerPackage : PackageMetadata := .ofMethods [("take", takeBack), ("keep", payIn)]

def takesFrom (slot : ℕ) : IntentTree where
  root := .mk ⟨0, 0, 9, 0⟩ [⟨1, .principal⟩] [⟨1, .principal⟩]
    [⟨recaller, "take",
        [.literal (.address coin.1), .literal (.address purse.1), .literal (.u64 slot)], []⟩,
      ⟨recaller, "keep", [.value (.edge ⟨0, 0⟩) []], []⟩] [] [] []
  instances := []
  resources := [recalledCoin]

def recallRecords (held : PackageMetadata) : ChainRecords :=
  ⟨fun target => some ⟨if target.1 = recaller.1 then 0 else 1, [], 0⟩,
    fun digest => some (if digest = 0 then recallerPackage else held)⟩

def takenFrom (slot : ℕ) : DeclaredAccess :=
  ⟨⟨.point (childKey codedHasher purse.1 slot [.address coin.1]), .delta .out⟩, some coin,
    some ⟨.recall, coin⟩, some 0⟩

theorem recallRecords_gated {held : PackageMetadata}
    (h : ∀ method ∈ held.methods, checkSignature method.2 = .ok ()) :
    (recallRecords held).Gated := by
  intro digest package hpackage
  have hown : ∀ method ∈ recallerPackage.methods, checkSignature method.2 = .ok () := by decide
  cases hpackage
  split
  · exact hown
  · exact h

theorem recaller_takes_coin_from_vault :
    ∃ a frame call, admitCoded (takesFrom VAULT) (recallRecords recallerPackage) = .ok a ∧
      a.frames[0]? = some frame ∧ a.calls[0]? = some call ∧
      takenFrom VAULT ∈ frame ∧ ReachesCell codedHasher (takenFrom VAULT) ⟨.recall, coin⟩ ∧
      EntryAnswered codedHasher ⟨.recall, coin⟩ call.target (a.Asks 0 call) := by
  have hrun :
    Library.passes (admitCoded (takesFrom VAULT) (recallRecords recallerPackage)) (fun a =>
        (a.frames[0]?.map fun frame => decide (takenFrom VAULT ∈ frame)) = some true &&
          a.calls[0]?.isSome) = true := by
    decide +kernel
  obtain ⟨a, ha, h⟩ := Library.passes_iff.mp hrun
  simp only [Bool.and_eq_true, decide_eq_true_eq, Option.map_eq_some_iff] at h
  obtain ⟨⟨frame, hframe, htaken⟩, hcall⟩ := h
  obtain ⟨call, hcall⟩ := Option.isSome_iff_exists.mp hcall
  have hgated : (recallRecords recallerPackage).Gated := recallRecords_gated (by decide)
  obtain ⟨-, hreach⟩ := foreign_reach_is_authorised hgated ha hcall hframe _ htaken
  exact ⟨a, frame, call, ha, hframe, hcall, htaken, hreach _ rfl⟩

end HyperscaleVm.Effects.Admission

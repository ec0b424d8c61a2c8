import HyperscaleVm.Effects.CodedHasher
import HyperscaleVm.Effects.Fires
import HyperscaleVm.Effects.Publish.Abi
import HyperscaleVm.Kernel.Oracle

/-!
# What a frame's conditions read (`effects/src/publish/declaration.rs`, `effects/src/dsl.rs`)

`check_conditions` wants every target a condition names declared as an access, and looks
for the access in the flattened clauses under the condition's own guard.
-/

namespace HyperscaleVm.Effects
open Library Option

def JudgedLeaf.reads : JudgedLeaf → Option EffectTarget
  | .presence target _ => some target
  | .stored cell | .signed cell _ => some (.point cell)
  | .claim _ => none

namespace Publish

structure Frame (H : Hasher) (signature : MethodSignature) where
  inputs : EvalInputs
  envelope : ℕ
  spent : ℕ
  declaration : Declaration
  evaluated : evaluateDeclaration H inputs signature.effects envelope = .ok (declaration, spent)

namespace Frame

variable {H : Hasher} {signature : MethodSignature} (f : Frame H signature)

def fires (l : Firing) : Prop := Fires H f.inputs signature.effects l

/-- Every target a condition reads is declared under a read or a write, so that judging
the condition records nothing the declared set does not cover. -/
structure ConditionsBacked : Prop where
  declared : ∀ c ∈ f.declaration.conditions, ∀ leaf ∈ c.rule.leaves, ∀ t, leaf.reads = some t →
    f.declaration.set.declares t .read ∨ f.declaration.set.declares t .write
  judged : ∀ c ∈ f.declaration.conditions, ∀ leaf ∈ c.rule.leaves, ∀ t, leaf.reads = some t →
    Kernel.undeclaredAccesses (Kernel.occupiedAccesses t) f.declaration.set = []

def Touches (t : EffectTarget) : Prop :=
  ∃ l guard target mode denomination reach, f.fires l ∧
    l.clause = .effect guard target mode denomination reach ∧
    (mode.isRead || mode.isWrite) = true ∧ target.meaning H f.inputs l.bindings = some t

/-- The conditions whose backing clauses all stand outside their own body are read or
written by some clause that fires. -/
def ElsewhereBacked : Prop :=
  ∀ l guard rule, f.fires l → l.clause = .requires guard rule → ∀ leaf ∈ rule.leaves,
    ∀ target, leafReads leaf = some target → signature.flat.any (backs target guard) = true →
      l.body.any (backs target guard) = false →
      ∃ t, target.meaning H f.inputs l.bindings = some t ∧ f.Touches t

end Frame

section

variable {H : Hasher} {E : EvalInputs} {ρ : List Value} {mode : ModeExpr} {m : Mode}

theorem kind_of_meaning (h : mode.meaning H E ρ = some m) :
    (mode.isRead || mode.isWrite) = true ↔ m.kind = .read ∨ m.kind = .write := by
  cases mode with
  | reserve amount =>
    simp only [ModeExpr.meaning, do_some, some.injEq] at h
    obtain ⟨_, -, n, -, rfl⟩ := h
    simp [ModeExpr.isRead, ModeExpr.isWrite, Mode.kind]
  | _ =>
    cases h
    simp [ModeExpr.isRead, ModeExpr.isWrite, Mode.kind]

theorem read_of_meaning (h : mode.meaning H E ρ = some m) :
    mode.isRead = true ↔ m.kind = .read := by
  cases mode with
  | reserve amount =>
    simp only [ModeExpr.meaning, do_some, some.injEq] at h
    obtain ⟨_, -, n, -, rfl⟩ := h
    simp [ModeExpr.isRead, Mode.kind]
  | _ =>
    cases h
    simp [ModeExpr.isRead, Mode.kind]

theorem write_of_meaning (h : mode.meaning H E ρ = some m)
    (hm : m.kind = .write) : ∃ moves, mode = .write moves := by
  cases mode with
  | write moves => exact ⟨moves, rfl⟩
  | reserve amount =>
    simp only [ModeExpr.meaning, do_some, some.injEq] at h
    obtain ⟨_, -, n, -, rfl⟩ := h
    cases hm
  | _ =>
    cases h
    cases hm

variable {leaf : RuleLeaf} {judged : JudgedLeaf}

theorem reads_of_meaning (h : leaf.meaning H E ρ = some judged) :
    judged.reads = (leafReads leaf).bind (TargetExpr.meaning H E ρ) := by
  cases leaf with
  | claim expr =>
    simp only [RuleLeaf.meaning, do_some, some.injEq] at h
    obtain ⟨_, -, c, -, rfl⟩ := h
    rfl
  | stored cell =>
    simp only [RuleLeaf.meaning, do_some, some.injEq] at h
    obtain ⟨v, hv, key, hk, rfl⟩ := h
    simp [leafReads, JudgedLeaf.reads, TargetExpr.meaning, hv, hk]
  | presence target expect =>
    simp only [RuleLeaf.meaning, do_some, some.injEq] at h
    obtain ⟨t, ht, rfl⟩ := h
    simp [leafReads, JudgedLeaf.reads, ht]

theorem reads_isSome
    (h : leaf.meaning H E ρ = some judged) : judged.reads.isSome = (leafReads leaf).isSome := by
  cases leaf with
  | presence target expect =>
    simp only [RuleLeaf.meaning, do_some, some.injEq] at h
    obtain ⟨t, -, rfl⟩ := h
    rfl
  | _ =>
    simp only [RuleLeaf.meaning, do_some, some.injEq] at h
    obtain ⟨_, -, _, -, rfl⟩ := h
    rfl

end

namespace Frame

variable {H : Hasher} {signature : MethodSignature} (f : Frame H signature)

theorem touches_iff (t : EffectTarget) :
    f.Touches t ↔ f.declaration.set.declares t .read ∨ f.declaration.set.declares t .write := by
  have hcov := covered_of_eval f.evaluated
  rw [hcov, hcov]
  constructor
  · rintro ⟨l, guard, target, mode, denomination, reach, hl, hc, hmode, ht⟩
    obtain ⟨a, ha, hd⟩ := access_of_fires f.evaluated hl hc
    have htarget : t = a.effect.target := some.inj (ht.symm.trans hd.target_eq)
    rcases (kind_of_meaning hd.mode_eq).mp hmode with hk | hk
    · exact .inl ⟨a, ha, htarget, hk.symm⟩
    · exact .inr ⟨a, ha, htarget, hk.symm⟩
  · intro h
    obtain ⟨a, ha, htarget, hkind⟩ : ∃ a ∈ f.declaration.ordered, t = a.effect.target ∧
        (a.effect.mode.kind = .read ∨ a.effect.mode.kind = .write) := by
      rcases h with ⟨a, ha, ht, hk⟩ | ⟨a, ha, ht, hk⟩
      · exact ⟨a, ha, ht, .inl hk.symm⟩
      · exact ⟨a, ha, ht, .inr hk.symm⟩
    obtain ⟨l, guard, target, mode, denomination, reach, hl, hd⟩ := fires_of_access f.evaluated ha
    exact ⟨l, guard, target, mode, denomination, reach, hl, hd.clause_eq,
      (kind_of_meaning hd.mode_eq).mpr hkind, by rw [hd.target_eq, htarget]⟩

variable {guard : Option Expr} {rule : RuleExpr} {target : TargetExpr}

theorem touches_of_backed {l : Firing} (hl : f.fires l) (hc : l.clause = .requires guard rule)
    (hback : l.body.any (backs target guard) = true) {t : EffectTarget}
    (ht : target.meaning H f.inputs l.bindings = some t) : f.Touches t := by
  obtain ⟨c, hmem, hb⟩ := List.any_eq_true.mp hback
  cases c with
  | effect guard' declared mode denomination reach =>
    cases reach with
    | some behaviour => cases hb
    | none =>
      simp only [backs, Bool.and_eq_true, decide_eq_true_eq, Bool.or_eq_true] at hb
      obtain ⟨⟨rfl, hmode⟩, hguard⟩ := hb
      have hg := hl.guard_holds
      rw [hc] at hg
      have hg' : guardMeaning H f.inputs l.bindings guard' = some true := by
        rcases hguard with rfl | rfl
        · rfl
        · exact hg
      exact ⟨⟨l.body, _, l.bindings⟩, guard', declared, mode, denomination, none,
        hl.sibling hmem rfl hg', rfl, by simpa using hmode, ht⟩
  | _ => cases hb

theorem backed_of_gate (hgate : checkSignature signature = .ok ())
    (hc : .requires guard rule ∈ signature.flat) {leaf : RuleLeaf}
    (hleaf : leaf ∈ rule.leaves) (ht : leafReads leaf = some target) :
    signature.flat.any (backs target guard) = true := by
  have hcond := (checkDeclarations_ok (checkSignature_ok.mp hgate).2.1).2.2.2
  simp only [checkConditions, seq_ok, tryIndexed_ok] at hcond
  obtain ⟨i, hi⟩ := List.getElem?_of_mem hc
  have hone := hcond.1 i _ hi
  simp only [seq_ok, tryAll_ok] at hone
  have hleaf' := hone.2 leaf hleaf
  simp only [checkLeaf, ht, seq_ok, require_ok] at hleaf'
  exact hleaf'.2

theorem elsewhere_of_declared (h : f.ConditionsBacked) : f.ElsewhereBacked := by
  intro l guard rule hl hc leaf hleaf target htarget _ _
  obtain ⟨c, hcmem, hrule⟩ := condition_of_fires f.evaluated hl hc
  obtain ⟨judged, hjudged, hmeaning⟩ := exists_mem_right (Rule.mapLeaves_leaves hrule) hleaf
  have hreads := reads_of_meaning hmeaning
  rw [htarget, bind_some] at hreads
  obtain ⟨t, ht⟩ := isSome_iff_exists.mp ((reads_isSome hmeaning).trans (by rw [htarget]; rfl))
  exact ⟨t, hreads ▸ ht, (f.touches_iff t).mpr (h.declared c hcmem judged hjudged t ht)⟩

/-- A frame of a gated method backs its conditions exactly when those backed outside their
own body are backed in the call. -/
theorem conditions_backed_iff_elsewhere (hgate : checkSignature signature = .ok ()) :
    f.ConditionsBacked ↔ f.ElsewhereBacked := by
  refine ⟨f.elsewhere_of_declared, fun helse => ?_⟩
  have hdeclared : ∀ c ∈ f.declaration.conditions, ∀ leaf ∈ c.rule.leaves, ∀ t,
      leaf.reads = some t →
        f.declaration.set.declares t .read ∨ f.declaration.set.declares t .write := by
    intro c hcmem judged hjudged t ht
    obtain ⟨l, guard, rule, hl, hc, hrule⟩ := fires_of_condition f.evaluated hcmem
    obtain ⟨leaf, hleaf, hmeaning⟩ := exists_mem_left (Rule.mapLeaves_leaves hrule) hjudged
    have hreads := reads_of_meaning hmeaning
    rw [ht] at hreads
    obtain ⟨target, htarget, hmean⟩ := bind_eq_some_iff.mp hreads.symm
    have hflat : l.clause ∈ signature.flat := hl.mem_flat
    rw [hc] at hflat
    have hgated := backed_of_gate hgate hflat hleaf htarget
    rw [← f.touches_iff]
    cases hbody : l.body.any (backs target guard) with
    | true => exact f.touches_of_backed hl hc hbody hmean
    | false =>
      obtain ⟨t', ht', htouch⟩ := helse l guard rule hl hc leaf hleaf target htarget hgated hbody
      obtain rfl : t = t' := some.inj (hmean.symm.trans ht')
      exact htouch
  refine ⟨hdeclared, fun c hc leaf hleaf t ht => ?_⟩
  refine List.filter_eq_nil_iff.mpr fun access ha => ?_
  simp [Kernel.covered_occupied (hdeclared c hc leaf hleaf t ht) ha]

theorem elsewhereBacked_of_no_loops (hno : ∀ c ∈ signature.effects, c.isLoop = false) :
    f.ElsewhereBacked := by
  intro l guard rule hl hc leaf hleaf target ht hflat hbody
  rw [hl.body_of_no_loops hno] at hbody
  rw [MethodSignature.flat, effectsAll_of_no_loops hno, hbody] at hflat
  cases hflat

end Frame

def boxInstance : Address := ⟨1, .component⟩

def boxCell : TargetExpr := .point (selfChild PACKAGE_SLOT_BASE .nil)

def readEach : MethodSignature :=
  { MethodSignature.empty with
    params := [.ids]
    effects := [
      .forEach none (.arg 0) [.effect none boxCell .read none none],
      .requires none (.require (.presence boxCell .present))] }

def boxInputs (ids : List Value) : EvalInputs :=
  ⟨boxInstance, [.list (.ofList ids)], ⟨0, [], 0⟩, 0, 0, ∅⟩

def boxTarget : EffectTarget := .point (childKey codedHasher boxInstance PACKAGE_SLOT_BASE [])

theorem empty_loop_leaves_condition_unbacked : checkSignature readEach = .ok () ∧
      ∃ f : Frame codedHasher readEach, f.inputs = boxInputs [] ∧ ¬f.ConditionsBacked := by
  refine ⟨by decide, ?_⟩
  have hrun : passes (evaluateDeclaration codedHasher (boxInputs []) readEach.effects 0)
      (fun p => p.1.ordered.isEmpty &&
        p.1.conditions.any fun c => c.rule = .require (.presence boxTarget .present)) = true := by
    decide +kernel
  obtain ⟨⟨d, spent⟩, hd, h⟩ := passes_iff.mp hrun
  simp only [Bool.and_eq_true, List.isEmpty_iff, List.any_eq_true, decide_eq_true_eq] at h
  obtain ⟨hnone, c, hc, hrule⟩ := h
  refine ⟨⟨boxInputs [], 0, spent, d, hd⟩, rfl, fun hback => ?_⟩
  have hcov := covered_of_eval hd
  have := hback.declared c hc (.presence boxTarget .present) (by rw [hrule]; simp [Rule.leaves])
    boxTarget rfl
  simp [hcov _ _, hnone] at this

def readOnce : MethodSignature :=
  { readEach with
    effects := [.effect none boxCell .read none none,
      .requires none (.require (.presence boxCell .present))] }

theorem readOnce_conditions_backed :
    ∃ f : Frame codedHasher readOnce, f.declaration.conditions ≠ [] ∧ f.ConditionsBacked := by
  have hrun : passes (evaluateDeclaration codedHasher (boxInputs []) readOnce.effects 0)
      (fun p => !p.1.conditions.isEmpty) = true := by
    decide +kernel
  obtain ⟨⟨d, spent⟩, hd, h⟩ := passes_iff.mp hrun
  let f : Frame codedHasher readOnce := ⟨boxInputs [], 0, spent, d, hd⟩
  refine ⟨f, by simpa [f] using h, (f.conditions_backed_iff_elsewhere (by decide)).mpr ?_⟩
  exact f.elsewhereBacked_of_no_loops (by simp [readOnce, Clause.isLoop])

end Publish

end HyperscaleVm.Effects

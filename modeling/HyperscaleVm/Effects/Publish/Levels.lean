import HyperscaleVm.Effects.Publish.Bounds

/-!
# The terms the gate walks, and how deep they group

Only a list or a tuple costs the encoder more than its parts do, two levels each.
-/

namespace HyperscaleVm.Effects.Publish
open Library List

theorem checkExprsBounds_ok {depth : ℕ} : {es : Exprs} → checkExprsBounds depth es = .ok () →
    ∀ e ∈ es.toList, checkExprBounds depth e = .ok ()
  | .nil, _ => by simp [Exprs.toList]
  | .cons e es, h => by
    obtain ⟨he, hes⟩ := seq_ok.mp h
    exact forall_mem_cons.mpr ⟨he, checkExprsBounds_ok hes⟩

theorem checkSlotBounds_ok {depth : ℕ} {slot : SlotRef} (h : checkSlotBounds depth slot = .ok ()) :
    ∀ e ∈ slot.isReached.toList, checkExprBounds depth e = .ok () := by
  cases slot with
  | fixed slot => simp [SlotRef.isReached]
  | reached e =>
    rw [checkSlotBounds] at h
    simpa [SlotRef.isReached] using h

theorem checkExprBounds_ok {depth : ℕ} {expr : Expr} (h : checkExprBounds depth expr = .ok ()) :
    depth ≤ MAX_EXPR_DEPTH ∧ (∀ v, expr = .literal v → v.depth ≤ MAX_VALUE_DEPTH) ∧
      ∀ e ∈ expr.children, checkExprBounds (depth + 1) e = .ok () := by
  rw [checkExprBounds.eq_def] at h
  obtain ⟨hterm, h⟩ := seq_ok.mp h
  obtain ⟨hdepth, hterm⟩ := seq_ok.mp hterm
  refine ⟨by simpa using require_ok.mp hdepth, fun v hv => ?_, ?_⟩
  · subst hv
    simpa using require_ok.mp (seq_ok.mp hterm).1
  cases expr with
  | literal | arg | config | binding | selfAddr | selfRecord | freshId | freshKey =>
    simp [Expr.children]
  | field | resourceOf | idsOf | len | only | not => simpa [Expr.children] using h
  | lookup | contains | pack | nfBucket | add | and | or | eq | lt =>
    simpa [Expr.children] using seq_ok.mp h
  | ite c t o =>
    obtain ⟨hc, h⟩ := seq_ok.mp h
    obtain ⟨ht, ho⟩ := seq_ok.mp h
    simp [Expr.children, hc, ht, ho]
  | list | tuple | selfResource => exact checkExprsBounds_ok h
  | childKey owner slot material =>
    obtain ⟨howner, h⟩ := seq_ok.mp h
    obtain ⟨hslot, hmaterial⟩ := seq_ok.mp h
    refine forall_mem_cons.mpr ⟨howner, forall_mem_append.mpr ⟨?_, ?_⟩⟩
    · exact checkSlotBounds_ok hslot
    · exact checkExprsBounds_ok hmaterial
  | orderKey owner slot material =>
    obtain ⟨howner, hmaterial⟩ := seq_ok.mp h
    exact forall_mem_cons.mpr ⟨howner, checkExprsBounds_ok hmaterial⟩

def groups : Expr → Bool
  | .list _ | .tuple _ => true
  | _ => false

def inner (expr : Expr) (nested : ℕ) : ℕ := if groups expr then nested - 1 else nested

/-- Lists and tuples stand at most `nested` deep in a term of at most `height` levels. -/
def groupsWithin : (height nested : ℕ) → Expr → Bool
  | 0, _, _ => false
  | height + 1, nested, expr =>
    (!groups expr || 0 < nested) && expr.children.all (groupsWithin height (inner expr nested))

/-- A term the gate passes and, where the encoder is to have room, the groups in it and the
values it reads. -/
structure Settled (fits : Prop) (E : EvalInputs) (ρ : List Value) (bound nested : ℕ)
    (expr : Expr) : Prop where
  gated : checkExprBounds bound expr = .ok ()
  grouped : fits → ∃ height, groupsWithin height nested expr = true
  reads : fits → ∀ v ∈ E.args ++ E.record.config ++ ρ, Wire.valueLevels v ≤ 33

section

variable {fits : Prop} {E : EvalInputs} {ρ : List Value} {bound nested : ℕ} {expr : Expr}

theorem Settled.inner (h : Settled fits E ρ bound nested expr) : (fits → groups expr → 0 < nested) ∧
    ∀ e ∈ expr.children, Settled fits E ρ (bound + 1) (inner expr nested) e := by
  have hchildren : fits → (groups expr → 0 < nested) ∧
      ∃ height, ∀ e ∈ expr.children, groupsWithin height (Publish.inner expr nested) e = true := by
    intro hfits
    obtain ⟨height, hgroups⟩ := h.grouped hfits
    cases height with
    | zero => cases hgroups
    | succ height =>
      obtain ⟨hpos, hall⟩ := Bool.and_eq_true_iff.mp hgroups
      exact ⟨fun hgroup => by simpa [hgroup] using hpos, height, all_eq_true.mp hall⟩
  refine ⟨fun hfits => (hchildren hfits).1, fun e he => ⟨?_, fun hfits => ?_, h.reads⟩⟩
  · exact (checkExprBounds_ok h.gated).2.2 e he
  · obtain ⟨-, height, hall⟩ := hchildren hfits
    exact ⟨height, hall e he⟩

end

def modeTerms : ModeExpr → List Expr
  | .reserve amount => [amount]
  | .read | .delta _ | .write _ => []

def leafTerms : RuleLeaf → List Expr
  | .claim expr | .stored expr => [expr]
  | .presence target _ => target.parts

/-- The terms a clause evaluates itself, its body's apart. -/
def clauseTerms (clause : Clause) : List Expr :=
  clause.guard.toList ++
    match clause with
    | .effect _ target mode denomination _ => target.parts ++ modeTerms mode ++ denomination.toList
    | .forEach _ list _ => [list]
    | .requires _ rule => rule.leaves.flatMap leafTerms
    | .proves _ claim => [claim]

def termFits (nested : ℕ) (expr : Expr) : Bool := groupsWithin (MAX_EXPR_DEPTH + 1) nested expr

/-- Fifteen groups over the deepest value admitted are what the encoder's cap leaves, and a list
of no deeper group hands its loop nothing deeper than it reads. -/
def clauseFits (clause : Clause) : Bool :=
  (clauseTerms clause).all (termFits 15) &&
    match clause with
    | .forEach _ list _ => termFits 1 list
    | _ => true

def directTerms (signature : MethodSignature) : List Expr :=
  signature.outputs ++ signature.denominations.filterMap id ++ signature.abi.filterMap fun
    | .derived expr => some expr
    | _ => none

def signatureFits (signature : MethodSignature) : Bool :=
  (directTerms signature).all (termFits 15) && signature.flat.all clauseFits

theorem checkOptionBounds_ok {expr : Option Expr} (h : checkOptionBounds expr = .ok ()) :
    ∀ e ∈ expr.toList, checkExprBounds 0 e = .ok () := by
  cases expr with
  | none => simp
  | some e => simpa [checkOptionBounds] using h

theorem checkModeBounds_ok {mode : ModeExpr} (h : checkModeBounds mode = .ok ()) :
    ∀ e ∈ modeTerms mode, checkExprBounds 0 e = .ok () := by
  cases mode with
  | reserve amount => simpa [modeTerms, checkModeBounds] using h
  | read | delta | write => simp [modeTerms]

mutual

theorem checkRuleBounds_ok : {rule : RuleExpr} → checkRuleBounds rule = .ok () →
    ∀ e ∈ rule.leaves.flatMap leafTerms, checkExprBounds 0 e = .ok ()
  | .require leaf, h => by
    rw [checkRuleBounds.eq_def] at h
    have hleaf := (seq_ok.mp h).2
    cases leaf with
    | claim | stored => simpa [Rule.leaves, leafTerms] using hleaf
    | presence => simpa [Rule.leaves, leafTerms] using tryAll_ok.mp hleaf
  | .countOf count rules, h => by
    rw [checkRuleBounds] at h
    exact checkRulesBounds_ok (seq_ok.mp h).2

theorem checkRulesBounds_ok : {rules : List RuleExpr} → checkRulesBounds rules = .ok () →
    ∀ e ∈ (Rule.leavesAll rules).flatMap leafTerms, checkExprBounds 0 e = .ok ()
  | [], _ => by simp [Rule.leavesAll]
  | rule :: rules, h => by
    rw [checkRulesBounds] at h
    obtain ⟨hrule, hrules⟩ := seq_ok.mp h
    rw [Rule.leavesAll, flatMap_append]
    exact forall_mem_append.mpr ⟨checkRuleBounds_ok hrule, checkRulesBounds_ok hrules⟩

end

theorem checkClauseBounds_ok {n n' : ClauseCount} {depth : ℕ} {clause : Clause}
    (h : checkClauseBounds depth n clause = .ok n') :
    ∀ e ∈ clauseTerms clause, checkExprBounds 0 e = .ok () := by
  rw [checkClauseBounds.eq_def] at h
  refine forall_mem_append.mpr ?_
  cases clause with
  | effect guard target mode denomination reach =>
    obtain ⟨hguard, h⟩ := seq_ok.mp (mapError_ok.mp h)
    obtain ⟨n₁, -, h⟩ := bind_ok.mp h
    obtain ⟨htarget, h⟩ := seq_ok.mp h
    obtain ⟨hmode, h⟩ := seq_ok.mp h
    refine ⟨checkOptionBounds_ok hguard, ?_⟩
    simp only [forall_mem_append]
    exact ⟨⟨tryAll_ok.mp htarget, checkModeBounds_ok hmode⟩, checkOptionBounds_ok (seq_ok.mp h).1⟩
  | forEach guard list body =>
    obtain ⟨hguard, hlist⟩ := seq_ok.mp (mapError_ok.mp (seq_ok.mp h).1)
    exact ⟨checkOptionBounds_ok hguard, by simpa using hlist⟩
  | requires guard rule =>
    obtain ⟨hguard, h⟩ := seq_ok.mp (mapError_ok.mp h)
    obtain ⟨n₁, -, h⟩ := bind_ok.mp h
    exact ⟨checkOptionBounds_ok hguard, checkRuleBounds_ok (seq_ok.mp h).1⟩
  | proves guard claim =>
    obtain ⟨hguard, h⟩ := seq_ok.mp (mapError_ok.mp h)
    obtain ⟨n₁, -, h⟩ := bind_ok.mp h
    obtain ⟨-, h⟩ := seq_ok.mp h
    exact ⟨checkOptionBounds_ok hguard, by simpa using (seq_ok.mp h).1⟩

theorem checkSignatureBounds_ok {signature : MethodSignature}
    (h : checkSignatureBounds signature = .ok ()) :
    (∀ e ∈ directTerms signature, checkExprBounds 0 e = .ok ()) ∧
      ∃ n, checkClausesBounds 0 ⟨0, 0, 0⟩ signature.effects = .ok n := by
  obtain ⟨houtputs, h⟩ := seq_ok.mp h
  obtain ⟨hdenominations, h⟩ := seq_ok.mp h
  obtain ⟨habi, h⟩ := seq_ok.mp h
  obtain ⟨-, h⟩ := seq_ok.mp h
  obtain ⟨-, h⟩ := seq_ok.mp h
  obtain ⟨n, hn, -⟩ := bind_ok.mp h
  simp only [directTerms, forall_mem_append, mem_filterMap]
  refine ⟨⟨⟨fun e he => ?_, ?_⟩, ?_⟩, n, hn⟩
  · obtain ⟨i, hi⟩ := mem_iff_getElem?.mp he
    exact mapError_ok.mp (tryIndexed_ok.mp houtputs i e hi)
  · rintro e ⟨denomination, hmem, rfl⟩
    obtain ⟨i, hi⟩ := mem_iff_getElem?.mp hmem
    exact mapError_ok.mp (tryIndexed_ok.mp hdenominations i _ hi)
  · rintro e ⟨param, hmem, hparam⟩
    obtain ⟨i, hi⟩ := mem_iff_getElem?.mp hmem
    have hchecked := tryIndexed_ok.mp habi i param hi
    cases param with
    | derived expr =>
      cases hparam
      exact mapError_ok.mp hchecked
    | _ => cases hparam

end HyperscaleVm.Effects.Publish

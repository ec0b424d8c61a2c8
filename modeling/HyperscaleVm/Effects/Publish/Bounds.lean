import HyperscaleVm.Effects.Eval
import HyperscaleVm.Effects.Signature

/-!
# Caps: what one signature may hold at all (`effects/src/publish/bounds.rs`)

Every walk mirrors the evaluator's own recursion, so a signature passing here is
one evaluation does not refuse on structure alone.
-/

namespace HyperscaleVm.Effects.Publish
open Library

inductive SignatureSite where
  | output (index : ℕ)
  | denomination (param : ℕ)
  | abi (index : ℕ)
  | issuance (index : ℕ)
  | clause (number : ℕ)
  deriving DecidableEq

inductive SignatureBoundsError where
  | unadmittedGrant
  | tooManyIssuances
  | tooManyProves
  | badgeChainTooDeep
  | ruleCaps
  | exprDepth
  | literalDepth
  | clauseDepth
  | tooManyEffects
  | valueWidth
  deriving DecidableEq

structure PlacedBounds where
  site : SignatureSite
  cause : SignatureBoundsError
  deriving DecidableEq

def placed {α : Type} (site : SignatureSite) (x : Except SignatureBoundsError α) :
    Except PlacedBounds α :=
  x.mapError fun cause => ⟨site, cause⟩

mutual

/-- `value_within_width`. -/
def withinWidth : Value → Bool
  | .bytes bs => bs.length ≤ MAX_VALUE_BYTES
  | .tuple vs => vs.toList.length ≤ MAX_VALUE_ITEMS && allWithinWidth vs
  | .list vs => vs.toList.length ≤ MAX_VALUE_ITEMS && allWithinWidth vs
  | _ => true

def allWithinWidth : Values → Bool
  | .nil => true
  | .cons v vs => withinWidth v && allWithinWidth vs

end

def restatesAbsence (behaviour : GrantedBehaviour) : GrantRuleExpr → Bool
  | .countOf 1 .nil => behaviour.asksAboutTheActor
  | .countOf 0 .nil => !behaviour.asksAboutTheActor
  | _ => false

def checkGrantLeaf : GrantSubject → Except SignatureBoundsError Unit
  | .selfAddr | .config _ => .ok ()
  | .selfBadge _ _ rules | .selfInstance _ _ rules =>
    tryAll (fun (p : GrantedBehaviour × GrantRuleExpr) => do
      require (p.2.toRule.withinCaps 0) .ruleCaps
      tryAll (fun leaf =>
        match leaf with
        | .selfAddr | .config _ => .ok ()
        | .selfBadge _ _ _ | .selfInstance _ _ _ => .error .badgeChainTooDeep)
        p.2.toRule.leaves) rules.toList

/-- A movement entry naming a configured badge seals one level below what was written, as
two leaves for one. -/
def widening (behaviour : GrantedBehaviour) (rule : GrantRuleExpr) : ℕ :=
  if behaviour.asksAboutTheActor then 0
  else rule.toRule.leaves.countP fun leaf =>
    match leaf with
    | .config _ => true
    | _ => false

def checkGrantsBounds (grants : GrantsExpr) : Except SignatureBoundsError Unit :=
  tryAll (fun (p : GrantedBehaviour × GrantRuleExpr) => do
    require (!restatesAbsence p.1 p.2) .unadmittedGrant
    let widened := widening p.1 p.2
    require (p.2.toRule.withinCaps (if widened > 0 then 1 else 0)) .ruleCaps
    require (p.2.toRule.leaves.length + widened ≤ MAX_RULE_LEAVES) .ruleCaps
    tryAll checkGrantLeaf p.2.toRule.leaves) grants.toList

def checkTerm (depth : ℕ) (expr : Expr) : Except SignatureBoundsError Unit := do
  require (depth ≤ MAX_EXPR_DEPTH) .exprDepth
  match expr with
  | .literal value => do
    require (value.depth ≤ MAX_VALUE_DEPTH) .literalDepth
    require (withinWidth value) .valueWidth
  | .list items | .tuple items => require (items.toList.length ≤ MAX_VALUE_ITEMS) .valueWidth
  | .selfResource _ _ grants => checkGrantsBounds grants
  | _ => .ok ()

mutual

def checkExprBounds (depth : ℕ) (expr : Expr) : Except SignatureBoundsError Unit := do
  checkTerm depth expr
  match expr with
  | .literal _ | .arg _ | .config _ | .binding _ | .selfAddr | .selfRecord
  | .freshId _ | .freshKey _ => .ok ()
  | .field e _ | .resourceOf e | .idsOf e | .len e | .only e | .not e =>
    checkExprBounds (depth + 1) e
  | .lookup a b | .contains a b | .pack a b | .nfBucket a b | .add a b
  | .and a b | .or a b | .eq a b | .lt a b => do
    checkExprBounds (depth + 1) a
    checkExprBounds (depth + 1) b
  | .ite c t o => do
    checkExprBounds (depth + 1) c
    checkExprBounds (depth + 1) t
    checkExprBounds (depth + 1) o
  | .list es | .tuple es | .selfResource _ es _ => checkExprsBounds (depth + 1) es
  | .childKey owner slot material => do
    checkExprBounds (depth + 1) owner
    checkSlotBounds (depth + 1) slot
    checkExprsBounds (depth + 1) material
  | .orderKey owner _ material => do
    checkExprBounds (depth + 1) owner
    checkExprsBounds (depth + 1) material

def checkExprsBounds (depth : ℕ) : Exprs → Except SignatureBoundsError Unit
  | .nil => .ok ()
  | .cons e es => do
    checkExprBounds depth e
    checkExprsBounds depth es

def checkSlotBounds (depth : ℕ) : SlotRef → Except SignatureBoundsError Unit
  | .fixed _ => .ok ()
  | .reached e => checkExprBounds depth e

end

def checkTargetBounds (target : TargetExpr) : Except SignatureBoundsError Unit :=
  tryAll (checkExprBounds 0) target.parts

def checkModeBounds : ModeExpr → Except SignatureBoundsError Unit
  | .reserve amount => checkExprBounds 0 amount
  | .read | .delta _ | .write _ => .ok ()

def checkOptionBounds : Option Expr → Except SignatureBoundsError Unit
  | some expr => checkExprBounds 0 expr
  | none => .ok ()

mutual

def checkRuleBounds : RuleExpr → Except SignatureBoundsError Unit
  | .require leaf => do
    require (Rule.withinCaps 0 (.require leaf)) .ruleCaps
    match leaf with
    | .claim claim => checkExprBounds 0 claim
    | .stored cell => checkExprBounds 0 cell
    | .presence target _ => checkTargetBounds target
  | .countOf count rules => do
    require (Rule.withinCaps 0 (.countOf count rules)) .ruleCaps
    checkRulesBounds rules

def checkRulesBounds : List RuleExpr → Except SignatureBoundsError Unit
  | [] => .ok ()
  | rule :: rules => do
    checkRuleBounds rule
    checkRulesBounds rules

end

structure ClauseCount where
  declared : ℕ
  proven : ℕ
  number : ℕ

def ClauseCount.declare (n : ClauseCount) : Except SignatureBoundsError ClauseCount :=
  if n.declared + 1 ≤ MAX_EFFECTS_PER_SIGNATURE then .ok { n with declared := n.declared + 1 }
  else .error .tooManyEffects

def provenBy : Expr → ℕ
  | .tuple _ => 2
  | _ => 1

mutual

def checkClauseBounds (depth : ℕ) (n : ClauseCount) (clause : Clause) :
    Except PlacedBounds ClauseCount :=
  let here := SignatureSite.clause n.number
  let n := { n with number := min (n.number + 1) (2 ^ 32 - 1) }
  match clause with
  | .effect guard target mode denomination _ => placed here do
    checkOptionBounds guard
    let n ← n.declare
    checkTargetBounds target
    checkModeBounds mode
    checkOptionBounds denomination
    return n
  | .forEach guard list body => do
    placed here do
      checkOptionBounds guard
      checkExprBounds 0 list
    checkClausesBounds (depth + 1) n body
  | .requires guard rule => placed here do
    checkOptionBounds guard
    let n ← n.declare
    checkRuleBounds rule
    return n
  | .proves guard claim => placed here do
    checkOptionBounds guard
    let n ← n.declare
    let n := { n with proven := n.proven + provenBy claim }
    require (n.proven ≤ MAX_PROVEN_PER_SIGNATURE) .tooManyProves
    checkExprBounds 0 claim
    return n

def checkClausesBounds (depth : ℕ) (n : ClauseCount) (clauses : List Clause) :
    Except PlacedBounds ClauseCount :=
  if depth > MAX_CLAUSE_DEPTH then .error ⟨.clause n.number, .clauseDepth⟩
  else
    match clauses with
    | [] => .ok n
    | clause :: clauses => do
      let n ← checkClauseBounds depth n clause
      checkClausesBounds depth n clauses

end

def checkSignatureBounds (signature : MethodSignature) : Except PlacedBounds Unit := do
  tryIndexed (fun i output => placed (.output i) (checkExprBounds 0 output)) signature.outputs
  tryIndexed (fun i denomination => placed (.denomination i) (checkOptionBounds denomination))
    signature.denominations
  tryIndexed (fun i param =>
    match param with
    | .derived expr => placed (.abi i) (checkExprBounds 0 expr)
    | _ => .ok ()) signature.abi
  require (signature.issues.length ≤ MAX_ISSUANCES_PER_SIGNATURE)
    ⟨.issuance MAX_ISSUANCES_PER_SIGNATURE, .tooManyIssuances⟩
  tryIndexed (fun i issuance => placed (.issuance i) (checkGrantsBounds issuance.grants))
    signature.issues
  let _ ← checkClausesBounds 0 ⟨0, 0, 0⟩ signature.effects
  return ()

end HyperscaleVm.Effects.Publish

import HyperscaleVm.Effects.Eval

/-!
# Declarations (`effects/src/dsl.rs`, `effects/src/manifest.rs`)
-/

namespace HyperscaleVm.Effects
open Std (ExtTreeMap)

inductive JudgedLeaf where
  | claim (claim : Claim)
  | stored (cell : SubstateKey)
  | presence (target : EffectTarget) (expect : Presence)
  | signed (cell : SubstateKey) (keys : List Claim)
  deriving DecidableEq

def JudgedLeaf.judged : JudgedLeaf → Judged
  | .claim _ => .atAdmission
  | .stored _ => .inTheLeg
  | .presence _ _ | .signed _ _ => .atMaterialization

def JudgedLeaf.stage (rule : Rule JudgedLeaf) : Judged :=
  .ofLeaves (rule.leaves.map JudgedLeaf.judged)

structure Reach where
  behaviour : GrantedBehaviour
  resource : ResourceAddr
  deriving DecidableEq

structure DeclaredAccess where
  effect : Effect
  holds : Option ResourceAddr
  reach : Option Reach
  clause : Option ℕ
  deriving DecidableEq

structure Condition where
  rule : Rule JudgedLeaf
  node : Option ℕ

structure Declaration where
  set : EffectSet
  ordered : List DeclaredAccess
  clauseSpans : List (ℕ × ℕ)
  conditions : List Condition
  proves : List Claim
  clauseTaken : List Bool
  expansions : ExtTreeMap ℕ (List (List (Option ℕ)))

def Declaration.required (d : Declaration) : List (Rule JudgedLeaf) := d.conditions.map (·.rule)

def Declaration.elements (d : Declaration) (clause site : ℕ) : Option (List (Option ℕ)) := do
  let sites ← d.expansions[clause]?
  sites[site]?

def Declaration.empty : Declaration := ⟨.new, [], [], [], [], [], ∅⟩

def NULLIFIER_SLOT : SlotId := 0xFFFF
def ESCROW_RECORD_SLOT : SlotId := 0xFFFD
def COMMITTED_TX_SLOT : SlotId := 0xFFFC
def CROSSING_CLAIM_SLOT : SlotId := 0xFFFB
def CROSSING_DECLINE_SLOT : SlotId := 0xFFFA
def FEE_HOLD_SLOT : SlotId := 0xFFF6
def FEE_HOLD_TOTAL_SLOT : SlotId := 0xFFF5

def MARKER_CELL_BYTES : ℕ := 96
def CROSSING_CELL_BYTES : ℕ := 256
def CROSSING_ANSWER_CELL_BYTES : ℕ := 160

def authorityWidth : ℕ := 2 * (2 + MAX_VALUE_BYTES)

def protocolWidth (slot : SlotId) : ℕ :=
  if slot = VAULT ∨ slot = FEE_HOLD_TOTAL_SLOT then 16
  else if slot = NF_VAULT then 0
  else if slot = HALT then 1
  else if slot = RESOURCE then 2
  else if slot = AUTH then authorityWidth
  else if slot = NULLIFIER_SLOT ∨ slot = COMMITTED_TX_SLOT then MARKER_CELL_BYTES
  else if slot = CROSSING_CLAIM_SLOT ∨ slot = CROSSING_DECLINE_SLOT then CROSSING_ANSWER_CELL_BYTES
  else if slot = ESCROW_RECORD_SLOT then CROSSING_CELL_BYTES
  else if slot = FEE_HOLD_SLOT then MARKER_CELL_BYTES
  else MAX_SLOT_WIDTH

def SlotWidths.widthOf (widths : SlotWidths) (slot : SlotId) : ℕ :=
  widths[slot]?.getD (protocolWidth slot)

def widthOf (E : EvalInputs) (target : TargetExpr) : ℕ :=
  match slotOf target with
  | some (.fixed slot, _) => E.widths.widthOf slot
  | _ => MAX_SLOT_WIDTH

section

variable (H : Hasher) (E : EvalInputs) (bindings : List Value)

def evalCollection (owner : Address) (slot : SlotRef) (material : Exprs) : Metered ℕ := do
  let slot ← evalSlot H E bindings false 0 slot
  let parts ← evalMaterial H E bindings 0 material
  spend WORK_PER_DERIVATION
  return H.collection owner slot parts

def evalTarget : TargetExpr → Metered EffectTarget
  | .point key => do
    let key ← evalExpr H E bindings 0 key
    let key ← free (asKey key.value)
    return .point key
  | .entry owner collection material order => do
    let owner ← evalExpr H E bindings 0 owner
    let owner ← free (asAddress owner.value)
    let collection ← evalCollection H E bindings owner collection material
    let order ← evalExpr H E bindings 0 order
    let order ← free (asU128 order.value)
    return .entry owner collection order
  | .range owner collection material lo hi cap => do
    let owner ← evalExpr H E bindings 0 owner
    let owner ← free (asAddress owner.value)
    let collection ← evalCollection H E bindings owner collection material
    let lo ← evalExpr H E bindings 0 lo
    let lo ← free (asU128 lo.value)
    let hi ← evalExpr H E bindings 0 hi
    let hi ← free (asU128 hi.value)
    free (if lo > hi then .error .invalidRange else .ok ())
    let cap ← evalExpr H E bindings 0 cap
    let cap ← free (asCap cap.value)
    return .range owner collection lo hi cap

def evalMode : ModeExpr → Metered Mode
  | .read => return .read
  | .delta moves => return .delta moves
  | .reserve amount => do
    let amount ← evalExpr H E bindings 0 amount
    let amount ← free (asU128 amount.value)
    return .reserve amount
  | .write moves => return .write moves

def evalDenomination (expr : Expr) : Metered ResourceAddr := do
  let value ← evalExpr H E bindings 0 expr
  free (asDenomination value.value)

def evalHolds : Option Expr → Metered (Option ResourceAddr)
  | none => return none
  | some expr => do return some (← evalDenomination H E bindings expr)

def evalReach (reach : Option GrantedBehaviour) (declared : TargetExpr) : Metered (Option Reach) :=
  match reach with
  | none => return none
  | some behaviour =>
    match keyingResource declared with
    | none => free (.error .unkeyedReach)
    | some keyed => do
      let resource ← evalDenomination H E bindings keyed
      return some ⟨behaviour, resource⟩

def evalLeaf : RuleLeaf → Metered JudgedLeaf
  | .presence target expect => do
    let target ← evalTarget H E bindings target
    return .presence target expect
  | .claim expr => do
    let value ← evalExpr H E bindings 0 expr
    let claim ← free (asClaim value.value)
    return .claim claim
  | .stored cell => do
    let cell ← evalExpr H E bindings 0 cell
    let cell ← free (asKey cell.value)
    return .stored cell

def evalCondition (rule : RuleExpr) : Metered (Rule JudgedLeaf) :=
  rule.mapLeaves (evalLeaf H E bindings)

def evalGuard : Option Expr → Metered Bool
  | none => return true
  | some cond => do
    let cond ← evalExpr H E bindings 0 cond
    free (asBool cond.value)

def evalProven (claim : Expr) : Metered Claim := do
  let value ← evalExpr H E bindings 0 claim
  let proven ← free (asClaim value.value)
  if proven.badge.isNone && claim ≠ .selfAddr then
    free (.error (.typeMismatch "badge" "identity"))
  else return proven

end

/-- Addition on the line numbers of a listing, which stop at the top of a `u32`. -/
def satAdd (a b : ℕ) : ℕ := min (a + b) (2 ^ 32 - 1)

mutual

def Clause.preorderLen : Clause → ℕ
  | .forEach _ _ body => satAdd 1 (preorderLenAll body)
  | _ => 1

def Clause.preorderLenAll : List Clause → ℕ
  | [] => 0
  | clause :: clauses => satAdd clause.preorderLen (preorderLenAll clauses)

end

structure Walk where
  out : Declaration
  preorder : ℕ
  meter : Meter

namespace Walk

def run {α : Type} (w : Walk) (x : Metered α) : Except EvalError (α × Walk) := do
  let (a, meter) ← x w.meter
  return (a, { w with meter })

def filed (w : Walk) (depth : ℕ) (taken : Bool) : Walk :=
  { w with
    preorder := satAdd w.preorder 1
    out := if depth = 0 then { w.out with clauseTaken := w.out.clauseTaken ++ [taken] } else w.out }

def push (w : Walk) (access : DeclaredAccess) (set : EffectSet) : Walk :=
  { w with out := { w.out with set, ordered := w.out.ordered ++ [access] } }

def require (w : Walk) (rule : Rule JudgedLeaf) : Walk :=
  { w with out := { w.out with conditions := w.out.conditions ++ [⟨rule, none⟩] } }

def prove (w : Walk) (claim : Claim) : Walk :=
  { w with out := { w.out with proves := w.out.proves ++ claim :: claim.widened.toList } }

def expanded (w : Walk) (depth index : ℕ) (rows : List (List (Option ℕ))) : Walk :=
  if depth = 0 then
    { w with out := { w.out with expansions := w.out.expansions.insert index rows } }
  else w

def spanned (w : Walk) (start : ℕ) : Walk :=
  { w with
    out :=
      { w.out with clauseSpans := w.out.clauseSpans ++ [(start, w.out.ordered.length - start)] } }

/-- A clause whose guard did not fire. A loop mapped over no elements, and its body's
lines keep their numbers all the same. -/
def skipped (w : Walk) (depth index : ℕ) : Clause → Walk
  | .forEach _ _ body =>
    ({ w with preorder := satAdd w.preorder (Clause.preorderLenAll body) }).expanded depth index
      (List.replicate body.length [])
  | _ => w

end Walk

def landed (clause : Clause) (before after : ℕ) : Option ℕ :=
  match clause with
  | .effect _ _ _ _ _ => if after = before + 1 then some before else none
  | _ => none

section

variable (H : Hasher) (E : EvalInputs) (index : ℕ)

def evalEffect (bindings : List Value) (number : ℕ) (target : TargetExpr) (mode : ModeExpr)
    (denomination : Option Expr) (reach : Option GrantedBehaviour) (w : Walk) :
    Except EvalError Walk := do
  let ((effect, holds, reach), w) ← w.run do
    let evaluated ← evalTarget H E bindings target
    let mode ← evalMode H E bindings mode
    charge
    let holds ← evalHolds H E bindings denomination
    let reach ← evalReach H E bindings reach target
    return (Effect.mk evaluated mode, holds, reach)
  match w.out.set.insertBounded effect (widthOf E target) with
  | none => .error .conflict
  | some (set, _) => return w.push ⟨effect, holds, reach, some number⟩ set

def evalRequires (bindings : List Value) (rule : RuleExpr) (w : Walk) : Except EvalError Walk := do
  let (judged, w) ← w.run do
    charge
    evalCondition H E bindings rule
  return w.require judged

def evalProves (bindings : List Value) (claim : Expr) (w : Walk) : Except EvalError Walk := do
  let (proven, w) ← w.run do
    charge
    evalProven H E bindings claim
  if (w.prove proven).out.proves.length > MAX_PROVEN_PER_SIGNATURE then .error .provesPastCap
  else return w.prove proven

def evalItems (bindings : List Value) (list : Expr) : Metered (List Value) := do
  let list ← evalExpr H E bindings 0 list
  let list ← forced list
  let items ← free (elements list)
  free (if items.length > MAX_FOREACH_ELEMENTS then .error (.forEachTooLong items.length)
    else .ok items)

def forItems (pass : Value → Walk → Except EvalError (Walk × List (Option ℕ))) (lines : ℕ) :
    List Value → Walk → List (List (Option ℕ)) → Except EvalError (Walk × List (List (Option ℕ)))
  | [], w, rows => .ok (w, rows)
  | item :: items, w, rows => do
    let ((), w) ← w.run charge
    let (w, sites) ← pass item { w with preorder := lines }
    forItems pass lines items w (List.zipWith (fun row site => row ++ [site]) rows sites)

mutual

/-- `eval_clauses` on one clause, as both its callers call it. -/
def evalClause (depth : ℕ) (bindings : List Value) (clause : Clause) (w : Walk) :
    Except EvalError Walk :=
  if depth > MAX_CLAUSE_DEPTH then .error .clausesTooDeep
  else do
    let (taken, w₁) ← w.run (evalGuard H E bindings clause.guard)
    let w₁ := w₁.filed depth taken
    if taken then
      match clause with
      | .effect _ target mode denomination reach =>
        evalEffect H E bindings w.preorder target mode denomination reach w₁
      | .requires _ rule => evalRequires H E bindings rule w₁
      | .proves _ claim => evalProves H E bindings claim w₁
      | .forEach _ list body => do
        let (items, w₂) ← w₁.run (evalItems H E bindings list)
        let (w₃, rows) ← forItems
          (fun item w => evalExpansion (depth + 1) (item :: bindings) body w)
          w₂.preorder items w₂ (List.replicate body.length [])
        let resume := satAdd w₂.preorder (Clause.preorderLenAll body)
        return ({ w₃ with preorder := resume }).expanded depth index rows
    else return w₁.skipped depth index clause

def evalExpansion (depth : ℕ) (bindings : List Value) (body : List Clause) (w : Walk) :
    Except EvalError (Walk × List (Option ℕ)) :=
  match body with
  | [] => return (w, [])
  | clause :: clauses => do
    let before := w.out.ordered.length
    let w ← evalClause depth bindings clause w
    let site := landed clause before w.out.ordered.length
    let (w, sites) ← evalExpansion depth bindings clauses w
    return (w, site :: sites)

end

end

section

variable (H : Hasher) (E : EvalInputs)

def evalTop (index : ℕ) (clause : Clause) (w : Walk) : Except EvalError Walk :=
  if index < 2 ^ 32 then do
    let w₁ ← evalClause H E index 0 [] clause w
    return w₁.spanned w.out.ordered.length
  else .error .tooManyEffects

def evaluateDeclaration (clauses : List Clause) (envelope : ℕ) :
    Except EvalError (Declaration × ℕ) := do
  let w ← clauses.zipIdx.foldlM (fun w (clause, index) => evalTop H E index clause w)
    ⟨.empty, 0, ⟨0, 0, envelope⟩⟩
  return (w.out, w.meter.envelope)

end

end HyperscaleVm.Effects

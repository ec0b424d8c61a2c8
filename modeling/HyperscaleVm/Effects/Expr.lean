import HyperscaleVm.Effects.Rule

/-!
# The declaration language (`effects/src/dsl.rs`, `rule.rs`, `resource.rs`, `signature.rs`)
-/

namespace HyperscaleVm.Effects

mutual

/-- Whom a granted rule names, in the issuing instance's terms. -/
inductive GrantSubject where
  | selfAddr
  | selfBadge (mark : List ℕ) (kind : ResourceKind) (rules : GrantsExpr)
  | selfInstance (mark : List ℕ) (id : ℕ) (rules : GrantsExpr)
  | config (slot : ℕ)

inductive GrantRuleExpr where
  | require (subject : GrantSubject)
  | countOf (count : ℕ) (rules : GrantRuleExprs)

inductive GrantRuleExprs where
  | nil
  | cons (head : GrantRuleExpr) (tail : GrantRuleExprs)

inductive GrantsExpr where
  | nil
  | cons (behaviour : GrantedBehaviour) (rule : GrantRuleExpr) (rest : GrantsExpr)
  deriving DecidableEq

end

namespace GrantsExpr

def get (behaviour : GrantedBehaviour) : GrantsExpr → Option GrantRuleExpr
  | .nil => none
  | .cons b rule rest => if b = behaviour then some rule else rest.get behaviour

def toList : GrantsExpr → List (GrantedBehaviour × GrantRuleExpr)
  | .nil => []
  | .cons b rule rest => (b, rule) :: rest.toList

end GrantsExpr

mutual

def GrantRuleExpr.toRule : GrantRuleExpr → Rule GrantSubject
  | .require subject => .require subject
  | .countOf count rules => .countOf count rules.toRules

def GrantRuleExprs.toRules : GrantRuleExprs → List (Rule GrantSubject)
  | .nil => []
  | .cons rule rules => rule.toRule :: rules.toRules

end

mutual

inductive Expr where
  | literal (value : Value)
  | arg (index : ℕ)
  | config (index : ℕ)
  | binding (index : ℕ)
  | selfAddr
  | selfRecord
  | field (tuple : Expr) (index : ℕ)
  | resourceOf (bucket : Expr)
  | idsOf (bucket : Expr)
  | len (list : Expr)
  | only (list : Expr)
  | list (elements : Exprs)
  | tuple (fields : Exprs)
  | nfBucket (resource ids : Expr)
  | lookup (map key : Expr)
  | selfResource (kind : ResourceKind) (material : Exprs) (grants : GrantsExpr)
  | childKey (owner : Expr) (slot : SlotRef) (material : Exprs)
  | freshId (slot : ℕ)
  | freshKey (slot : ℕ)
  | pack (hi lo : Expr)
  | orderKey (owner : Expr) (slot : SlotId) (material : Exprs)
  | add (left right : Expr)
  | not (inner : Expr)
  | and (left right : Expr)
  | or (left right : Expr)
  | eq (left right : Expr)
  | lt (left right : Expr)
  | contains (map key : Expr)
  | ite (cond then_ otherwise : Expr)
  deriving DecidableEq

inductive Exprs where
  | nil
  | cons (head : Expr) (tail : Exprs)
  deriving DecidableEq

inductive SlotRef where
  | fixed (slot : SlotId)
  | reached (expr : Expr)
  deriving DecidableEq

end

def Exprs.toList : Exprs → List Expr
  | .nil => []
  | .cons e es => e :: es.toList

def Exprs.head? : Exprs → Option Expr
  | .nil => none
  | .cons e _ => some e

abbrev Exprs.single (e : Expr) : Exprs := .cons e .nil

def SlotRef.isFixed : SlotRef → Option SlotId
  | .fixed slot => some slot
  | .reached _ => none

def SlotRef.isReached : SlotRef → Option Expr
  | .fixed _ => none
  | .reached expr => some expr

def selfChild (slot : SlotId) (material : Exprs) : Expr :=
  .childKey .selfAddr (.fixed slot) material

def Expr.children : Expr → List Expr
  | .literal _ | .arg _ | .config _ | .binding _ | .selfAddr | .selfRecord
  | .freshId _ | .freshKey _ => []
  | .field e _ | .resourceOf e | .idsOf e | .len e | .only e | .not e => [e]
  | .lookup a b | .contains a b | .pack a b | .nfBucket a b | .add a b
  | .and a b | .or a b | .eq a b | .lt a b => [a, b]
  | .ite c t o => [c, t, o]
  | .list es | .tuple es | .selfResource _ es _ => es.toList
  | .childKey owner slot material => owner :: slot.isReached.toList ++ material.toList
  | .orderKey owner _ material => owner :: material.toList

mutual

def Expr.readsCallInputs : Expr → Bool
  | .arg _ | .binding _ => true
  | .literal _ | .config _ | .selfAddr | .selfRecord | .freshId _ | .freshKey _ => false
  | .field e _ | .resourceOf e | .idsOf e | .len e | .only e | .not e => e.readsCallInputs
  | .lookup a b | .contains a b | .pack a b | .nfBucket a b | .add a b
  | .and a b | .or a b | .eq a b | .lt a b => a.readsCallInputs || b.readsCallInputs
  | .ite c t o => c.readsCallInputs || t.readsCallInputs || o.readsCallInputs
  | .list es | .tuple es | .selfResource _ es _ => es.readsCallInputs
  | .childKey owner slot material =>
    owner.readsCallInputs || slot.readsCallInputs || material.readsCallInputs
  | .orderKey owner _ material => owner.readsCallInputs || material.readsCallInputs

def Exprs.readsCallInputs : Exprs → Bool
  | .nil => false
  | .cons e es => e.readsCallInputs || es.readsCallInputs

def SlotRef.readsCallInputs : SlotRef → Bool
  | .fixed _ => false
  | .reached e => e.readsCallInputs

end

inductive ModeExpr where
  | read
  | delta (moves : Moves)
  | reserve (amount : Expr)
  | write (moves : Moves)

def ModeExpr.moves : ModeExpr → Option Moves
  | .read => none
  | .delta moves | .write moves => some moves
  | .reserve _ => some .out

def ModeExpr.isRead : ModeExpr → Bool
  | .read => true
  | _ => false

def ModeExpr.isWrite : ModeExpr → Bool
  | .write _ => true
  | _ => false

inductive TargetExpr where
  | point (key : Expr)
  | entry (owner : Expr) (collection : SlotRef) (material : Exprs) (order : Expr)
  | range (owner : Expr) (collection : SlotRef) (material : Exprs) (lo hi cap : Expr)
  deriving DecidableEq

def TargetExpr.isPoint : TargetExpr → Bool
  | .point _ => true
  | _ => false

def TargetExpr.parts : TargetExpr → List Expr
  | .point key => [key]
  | .entry owner collection material order =>
    owner :: collection.isReached.toList ++ material.toList ++ [order]
  | .range owner collection material lo hi cap =>
    owner :: collection.isReached.toList ++ material.toList ++ [lo, hi, cap]

def TargetExpr.readsCallInputs (target : TargetExpr) : Bool :=
  target.parts.any Expr.readsCallInputs

def slotOf : TargetExpr → Option (SlotRef × Exprs)
  | .point (.childKey _ slot material) => some (slot, material)
  | .point _ => none
  | .entry _ collection material _ => some (collection, material)
  | .range _ collection material _ _ _ => some (collection, material)

def keyingResource (target : TargetExpr) : Option Expr :=
  (slotOf target).bind fun (_, material) => material.head?

inductive RuleLeaf where
  | claim (expr : Expr)
  | stored (cell : Expr)
  | presence (target : TargetExpr) (expect : Presence)

namespace RuleLeaf

def judged : RuleLeaf → Judged
  | .claim _ => .atAdmission
  | .stored _ => .inTheLeg
  | .presence _ _ => .atMaterialization

def readsStateOnly (leaf : RuleLeaf) : Bool := leaf.judged == .atMaterialization

def readsCallInputs : RuleLeaf → Bool
  | .claim expr => expr.readsCallInputs
  | .stored cell => cell.readsCallInputs
  | .presence target _ => target.readsCallInputs

end RuleLeaf

abbrev RuleExpr := Rule RuleLeaf

def RuleExpr.namesCallerAuthority (rule : RuleExpr) : Bool :=
  rule.leaves.any fun leaf => !leaf.readsStateOnly && leaf.readsCallInputs

inductive Clause where
  | effect (guard : Option Expr) (target : TargetExpr) (mode : ModeExpr)
      (denomination : Option Expr) (reach : Option GrantedBehaviour)
  | forEach (guard : Option Expr) (list : Expr) (body : List Clause)
  | requires (guard : Option Expr) (rule : RuleExpr)
  | proves (guard : Option Expr) (claim : Expr)

namespace Clause

def guard : Clause → Option Expr
  | .effect guard _ _ _ _ | .forEach guard _ _ | .requires guard _ | .proves guard _ => guard

mutual

def effects : Clause → List Clause
  | .forEach guard list body => .forEach guard list body :: effectsAll body
  | .effect guard target mode denomination reach =>
    [.effect guard target mode denomination reach]
  | .requires guard rule => [.requires guard rule]
  | .proves guard claim => [.proves guard claim]

def effectsAll : List Clause → List Clause
  | [] => []
  | clause :: clauses => clause.effects ++ effectsAll clauses

end

theorem mem_effects_self (clause : Clause) : clause ∈ clause.effects := by
  cases clause <;> simp [effects]

theorem mem_effectsAll {clause : Clause} {clauses : List Clause} :
    clause ∈ effectsAll clauses ↔ ∃ c ∈ clauses, clause ∈ c.effects := by
  induction clauses with
  | nil => simp [effectsAll]
  | cons c cs ih => simp [effectsAll, ih]

def supports : Clause → Bool
  | .effect _ (.point _) _ _ _ => true
  | .effect _ _ .read _ _ => true
  | .effect _ _ (.write _) _ _ => true
  | _ => false

end Clause

end HyperscaleVm.Effects

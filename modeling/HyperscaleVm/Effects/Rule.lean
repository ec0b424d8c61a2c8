import HyperscaleVm.Effects.Value

/-!
# Rules and granted behaviours (`effects/src/rule.rs`, `auth.rs`, `resource.rs`)

A rule is a threshold tree over leaves.
-/

namespace HyperscaleVm.Effects
open Option
open Std (ExtTreeMap)

inductive Rule (L : Type) where
  | require (leaf : L)
  | countOf (count : ℕ) (rules : List (Rule L))

inductive Judged where
  | atAdmission
  | atMaterialization
  | inTheLeg
  deriving DecidableEq

def Judged.beforeAnyLeg : Judged → Bool
  | .inTheLeg => false
  | _ => true

def Judged.ofLeaves (stages : List Judged) : Judged :=
  if stages.contains .inTheLeg then .inTheLeg
  else
    match stages.contains .atMaterialization, stages.contains .atAdmission with
    | true, true => .inTheLeg
    | true, false => .atMaterialization
    | false, _ => .atAdmission

def MAX_RULE_DEPTH : ℕ := 4
def MAX_RULE_LEAVES : ℕ := 64

namespace Rule

variable {L T : Type}

mutual

def leaves : Rule L → List L
  | .require leaf => [leaf]
  | .countOf _ rules => leavesAll rules

def leavesAll : List (Rule L) → List L
  | [] => []
  | rule :: rules => rule.leaves ++ leavesAll rules

end

mutual

def decEq [DecidableEq L] : (r r' : Rule L) → Decidable (r = r')
  | .require leaf, .require leaf' => decidable_of_iff (leaf = leaf') (by simp)
  | .countOf count rules, .countOf count' rules' =>
    match decEqAll rules rules' with
    | .isTrue h => decidable_of_iff (count = count') (by simp [h])
    | .isFalse h => .isFalse (by simp [h])
  | .require _, .countOf _ _ | .countOf _ _, .require _ => .isFalse (by simp)

def decEqAll [DecidableEq L] : (rs rs' : List (Rule L)) → Decidable (rs = rs')
  | [], [] => .isTrue rfl
  | r :: rs, r' :: rs' =>
    match decEq r r' with
    | .isTrue h =>
      match decEqAll rs rs' with
      | .isTrue hs => .isTrue (by rw [h, hs])
      | .isFalse hs => .isFalse (by simp [hs])
    | .isFalse h => .isFalse (by simp [h])
  | [], _ :: _ | _ :: _, [] => .isFalse (by simp)

end

instance [DecidableEq L] : DecidableEq (Rule L) := decEq

def always : Rule L := .countOf 0 []

def never : Rule L := .countOf 1 []

def isConstant : Rule L → Bool
  | .countOf _ [] => true
  | _ => false

def wellFormed : Rule L → Bool
  | .require _ => true
  | .countOf count [] => count ≤ 1
  | .countOf count (r :: rs) =>
    !(r :: rs).any isConstant && count != 0 && count ≤ (r :: rs).length
      && (leavesAll (r :: rs)).length ≤ MAX_RULE_LEAVES

mutual

def withinCaps (depth : ℕ) : Rule L → Bool
  | .require _ => depth < MAX_RULE_DEPTH
  | .countOf count rules =>
    depth < MAX_RULE_DEPTH && wellFormed (.countOf count rules) && withinCapsAll (depth + 1) rules

def withinCapsAll (depth : ℕ) : List (Rule L) → Bool
  | [] => true
  | rule :: rules => rule.withinCaps depth && withinCapsAll depth rules

end

mutual

def mapLeaves {m : Type → Type} [Monad m] (f : L → m T) : Rule L → m (Rule T)
  | .require leaf => do return .require (← f leaf)
  | .countOf count rules => do return .countOf count (← mapLeavesAll f rules)

def mapLeavesAll {m : Type → Type} [Monad m] (f : L → m T) : List (Rule L) → m (List (Rule T))
  | [] => return []
  | rule :: rules => do
    let rule ← rule.mapLeaves f
    let rules ← mapLeavesAll f rules
    return rule :: rules

end

mutual

theorem mapLeaves_leaves {f : L → Option T} {rule : Rule L} {r : Rule T}
    (h : rule.mapLeaves f = some r) :
    List.Forall₂ (fun l t => f l = some t) rule.leaves r.leaves := by
  cases rule with
  | require leaf =>
    simp only [mapLeaves, bind_eq_bind, bind_eq_some_iff, pure_def,
      some.injEq] at h
    obtain ⟨t, ht, rfl⟩ := h
    exact .cons ht .nil
  | countOf count rules =>
    simp only [mapLeaves, bind_eq_bind, bind_eq_some_iff, pure_def,
      some.injEq] at h
    obtain ⟨rs, hrs, rfl⟩ := h
    exact mapLeavesAll_leaves hrs

theorem mapLeavesAll_leaves {f : L → Option T} {rules : List (Rule L)} {rs : List (Rule T)}
    (h : mapLeavesAll f rules = some rs) :
    List.Forall₂ (fun l t => f l = some t) (leavesAll rules) (leavesAll rs) := by
  cases rules with
  | nil =>
    cases h
    exact .nil
  | cons rule rules =>
    simp only [mapLeavesAll, bind_eq_bind, bind_eq_some_iff, pure_def,
      some.injEq] at h
    obtain ⟨r, hr, rs', hrs, rfl⟩ := h
    exact List.rel_append (mapLeaves_leaves hr) (mapLeavesAll_leaves hrs)

end

mutual

def holds (met : L → Bool) : Rule L → Bool
  | .require leaf => met leaf
  | .countOf count rules => count ≤ holdsCount met rules

def holdsCount (met : L → Bool) : List (Rule L) → ℕ
  | [] => 0
  | rule :: rules => (if rule.holds met then 1 else 0) + holdsCount met rules

end

mutual

theorem holds_mono {met met' : L → Bool} : ∀ rule : Rule L,
    (∀ leaf ∈ rule.leaves, met leaf = true → met' leaf = true) →
    rule.holds met = true → rule.holds met' = true
  | .require leaf, h => h leaf (by simp [leaves])
  | .countOf count rules, h => by
    have hcount := holdsCount_mono rules fun leaf hleaf => h leaf (by simpa [leaves] using hleaf)
    simp only [holds, decide_eq_true_eq]
    omega

theorem holdsCount_mono {met met' : L → Bool} : ∀ rules : List (Rule L),
    (∀ leaf ∈ leavesAll rules, met leaf = true → met' leaf = true) →
    holdsCount met rules ≤ holdsCount met' rules
  | [], _ => le_refl 0
  | rule :: rules, h => by
    have hrule := holds_mono rule fun leaf hleaf => h leaf (by simp [leavesAll, hleaf])
    have hrest := holdsCount_mono rules fun leaf hleaf => h leaf (by simp [leavesAll, hleaf])
    simp only [holdsCount]
    split_ifs with hheld hheld'
    · omega
    · exact absurd (hrule hheld) hheld'
    · omega
    · omega

end

end Rule

def Rule.satisfiedBy (rule : Rule Claim) (presented : List Claim) : Bool :=
  rule.holds fun claim => presented.contains claim

inductive Holding where
  | balance
  | anyInstance
  | instance_ (id : ℕ)
  deriving DecidableEq

inductive SealedLeaf where
  | claim (claim : Claim)
  | held (badge : ResourceAddr) (holding : Holding)
  deriving DecidableEq

abbrev StoredRule := Rule SealedLeaf

namespace StoredRule

def claim (presented : Claim) : StoredRule := .require (.claim presented)

def held (badge : ResourceAddr) (holding : Holding) : StoredRule := .require (.held badge holding)

def claimsOnly (rule : StoredRule) : Option (Rule Claim) :=
  rule.mapLeaves fun leaf =>
    match leaf with
    | .claim claim => some claim
    | .held _ _ => none

end StoredRule

inductive RuleBytes where
  | encoded (rule : StoredRule)
  | garbled (bytes : List ℕ)

/-- Decoding answers a rule only where it is well formed at every node and within
the depth the wire carries. -/
def RuleBytes.decode : RuleBytes → Option StoredRule
  | .encoded rule => if rule.withinCaps 0 then some rule else none
  | .garbled _ => none

inductive GrantedBehaviour where
  | mint
  | burn
  | withdraw
  | deposit
  | halt
  | recall
  deriving DecidableEq

inductive ReachedCell where
  | halt
  | value
  deriving DecidableEq

namespace GrantedBehaviour

def discriminant : GrantedBehaviour → ℕ
  | .mint => 0
  | .burn => 1
  | .withdraw => 2
  | .deposit => 3
  | .halt => 4
  | .recall => 5

theorem discriminant_injective : Function.Injective discriminant := by
  intro a b h
  cases a <;> cases b <;> first | rfl | cases h

instance : LinearOrder GrantedBehaviour := LinearOrder.lift' discriminant discriminant_injective

def earnedBy : Moves → List GrantedBehaviour
  | .in => [.deposit]
  | .out => [.withdraw]
  | .both => [.withdraw, .deposit]

def asksAboutTheActor : GrantedBehaviour → Bool
  | .mint | .burn | .halt | .recall => true
  | .withdraw | .deposit => false

def reaches : GrantedBehaviour → Option ReachedCell
  | .halt => some .halt
  | .recall => some .value
  | .mint | .burn | .withdraw | .deposit => none

def restrictsMovement : GrantedBehaviour → Bool
  | .withdraw | .deposit | .halt => true
  | .mint | .burn | .recall => false

/-- The rule an entry puts on a frame, `none` inside where the actor's own claim discharges it; the
outer `none` is an entry that does not decode. -/
def demanded (behaviour : GrantedBehaviour) (entry : RuleBytes) (speakingFor : Option Claim) :
    Option (Option StoredRule) :=
  match entry.decode with
  | none => none
  | some rule =>
    let own : Bool :=
      match speakingFor, rule.claimsOnly with
      | some own, some claims => claims.satisfiedBy [own]
      | _, _ => false
    if behaviour.asksAboutTheActor && own then some none else some (some rule)

end GrantedBehaviour

abbrev ResourceGrants := ExtTreeMap GrantedBehaviour RuleBytes

def ResourceGrants.restrictsMovement (grants : ResourceGrants) : Bool :=
  grants.keys.any GrantedBehaviour.restrictsMovement

def ResourceGrants.addressClass (grants : ResourceGrants) : AddressClass :=
  if grants.restrictsMovement then .restricted else .resource

end HyperscaleVm.Effects

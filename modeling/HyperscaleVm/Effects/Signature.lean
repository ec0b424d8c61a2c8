import HyperscaleVm.Effects.Derive

/-!
# Method signatures (`effects/src/signature.rs`)
-/

namespace HyperscaleVm.Effects

inductive ParamType where
  | u64
  | u128
  | u256
  | bytes
  | bytesExact (width : ℕ)
  | address
  | callTarget
  | principal
  | component
  | package
  | resource
  | rule
  | ids
  | bucket
  | nfBucket
  | principalRule
  deriving DecidableEq

namespace ParamType

def isEdge : ParamType → Bool
  | .bucket | .nfBucket => true
  | _ => false

def edgeKind : ParamType → Option ResourceKind
  | .bucket => some .fungible
  | .nfBucket => some .nonFungible
  | _ => none

def name : ParamType → String
  | .u64 => "u64"
  | .u128 => "u128"
  | .u256 => "u256"
  | .bytes => "bytes"
  | .bytesExact _ => "exact-width bytes"
  | .address => "address"
  | .callTarget => "call-target"
  | .principal => "principal-address"
  | .component => "component-address"
  | .package => "package-address"
  | .resource => "resource-address"
  | .rule => "rule"
  | .principalRule => "principal-rule"
  | .ids => "ids"
  | .bucket => "bucket"
  | .nfBucket => "nf-bucket"

def admits (ruleOf : List ℕ → Option StoredRule) : ParamType → Value → Bool
  | .u64, .u64 _ | .u128, .u128 _ | .u256, .u256 _ | .bytes, .bytes _ | .address, .address _ => true
  | .bytesExact width, .bytes bs => bs.length = width
  | .callTarget, .address a => callable a
  | .principal, .address a => a.cls = .principal
  | .component, .address a => a.cls = .component
  | .package, .address a => a.cls = .package
  | .resource, .address a => a.isResource
  | .rule, .bytes bs => (ruleOf bs).isSome
  | .principalRule, .bytes bs =>
    match (ruleOf bs).bind StoredRule.claimsOnly with
    | some claims => claims.leaves.all fun claim =>
      claim.instance_.isNone && claim.subject.cls = .principal
    | none => false
  | .ids, .list elements =>
    elements.toList.length ≤ MAX_IDS_PER_EDGE && decide elements.toList.Nodup
      && elements.toList.all fun element =>
        match element with
        | .u64 _ => true
        | _ => false
  | _, _ => false

end ParamType

inductive AbiParam where
  | handle (clause site : ℕ)
  | bucket (param : ℕ)
  | guard (clause : ℕ)
  | derived (expr : Expr)
  deriving DecidableEq

def MAX_ISSUANCES_PER_SIGNATURE : ℕ := 16

inductive Issued where
  | minted
  | burned
  | either
  deriving DecidableEq

namespace Issued

def behaviours : Issued → List GrantedBehaviour
  | .minted => [.mint]
  | .burned => [.burn]
  | .either => [.mint, .burn]

def mints : Issued → Bool
  | .minted | .either => true
  | .burned => false

def burns : Issued → Bool
  | .burned | .either => true
  | .minted => false

end Issued

/-- A resource a method's body may mint or burn: the mark and the grants its address
derives from. -/
structure Issuance where
  mark : List ℕ
  kind : ResourceKind
  direction : Issued
  grants : GrantsExpr

structure MethodSignature where
  declines : Bool
  issues : List Issuance
  destroys : List ℕ
  params : List ParamType
  outputs : List Expr
  answers : Bool
  denominations : List (Option Expr)
  effects : List Clause
  abi : List AbiParam
  emits : List ℕ
  eventBytes : ℕ

/-- `MethodSignature::default`. -/
def MethodSignature.empty : MethodSignature :=
  ⟨false, [], [], [], [], false, [], [], [], [], 0⟩

namespace MethodSignature

def flat (signature : MethodSignature) : List Clause := Clause.effectsAll signature.effects

def isReservationShaped (signature : MethodSignature) : Bool :=
  let moving := signature.flat.filterMap fun clause =>
    match clause with
    | .effect _ _ mode _ reach => if mode.moves.isSome then some (mode, reach) else none
    | _ => none
  let reserves : ModeExpr × Option GrantedBehaviour → Bool := fun (mode, reach) =>
    match mode, reach with
    | .reserve _, none => true
    | _, _ => false
  signature.issues.isEmpty && signature.destroys.isEmpty && signature.outputs.length == 1
    && moving.all reserves && moving.length == 1

def commitsNothing (signature : MethodSignature) : Bool :=
  signature.outputs.isEmpty && signature.issues.isEmpty && signature.destroys.isEmpty
    && signature.flat.all fun clause =>
      match clause with
      | .effect _ _ mode _ _ => mode.moves.isNone
      | _ => true

def isVaultDeposit (signature : MethodSignature) : Bool :=
  let credit : Bool :=
    match signature.effects with
    | [.effect none target (.delta .in) (some denomination) none] =>
      target = .point (selfChild VAULT (.single (.resourceOf (.arg 0))))
        && denomination = .resourceOf (.arg 0)
    | _ => false
  !signature.declines && signature.params = [.bucket]
    && signature.abi = [.handle 0 0, .bucket 0] && credit && signature.outputs.isEmpty
    && !signature.answers && signature.issues.isEmpty && signature.destroys.isEmpty

end MethodSignature

end HyperscaleVm.Effects

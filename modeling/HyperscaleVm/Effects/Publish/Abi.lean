import HyperscaleVm.Effects.Publish.Bounds
import HyperscaleVm.Effects.Publish.Declarations

/-!
# The ABI gate and the signature's verdict (`effects/src/publish/abi.rs`, `mod.rs`)
-/

namespace HyperscaleVm.Effects.Publish
open Library

inductive AbiError where
  | noSuchClause (position clause declared : ℕ)
  | unguardedClause (position clause : ℕ)
  | noSuchSite (position clause site : ℕ)
  | notACapability (position clause : ℕ)
  | notALoopedAccess (position clause site : ℕ)
  | siteBorrowedTwice (position clause site : ℕ)
  | noSuchParam (position param declared : ℕ)
  | notABucket (position param : ℕ) (kind : String)
  | bucketCarriedTwice (param carried : ℕ)
  deriving DecidableEq

def isAccess : Clause → Bool
  | .effect _ _ _ _ _ => true
  | _ => false

def declaresASite (signature : MethodSignature) (position clause site : ℕ) :
    Except AbiError Unit :=
  match signature.effects[clause]? with
  | none => .error (.noSuchClause position clause signature.effects.length)
  | some (.effect _ _ _ _ _) => require (site = 0) (.noSuchSite position clause site)
  | some (.forEach _ _ body) =>
    require ((body[site]?.map isAccess).getD false) (.notALoopedAccess position clause site)
  | some _ => .error (.notACapability position clause)

def checkBinding (signature : MethodSignature) (position : ℕ) (binding : AbiParam) :
    Except AbiError Unit :=
  match binding with
  | .handle clause site => do
    declaresASite signature position clause site
    require (!(signature.abi.take position).contains (.handle clause site))
      (.siteBorrowedTwice position clause site)
  | .guard clause =>
    match signature.effects[clause]? with
    | none => .error (.noSuchClause position clause signature.effects.length)
    | some declared => require declared.guard.isSome (.unguardedClause position clause)
  | .bucket param =>
    match signature.params[param]? with
    | none => .error (.noSuchParam position param signature.params.length)
    | some kind => require kind.isEdge (.notABucket position param kind.name)
  | .derived _ => .ok ()

def checkAbi (signature : MethodSignature) : Except AbiError Unit := do
  tryIndexed (checkBinding signature) signature.abi
  tryIndexed (fun param _ =>
    let carried := signature.abi.count (.bucket param)
    require (carried ≤ 1) (.bucketCarriedTwice param carried)) signature.params

inductive SignatureError where
  | bounds (source : PlacedBounds)
  | declaration (source : DeclarationError)
  | abi (source : AbiError)
  deriving DecidableEq

def checkSignature (signature : MethodSignature) : Except SignatureError Unit := do
  (checkSignatureBounds signature).mapError .bounds
  (checkDeclarations signature).mapError .declaration
  (checkAbi signature).mapError .abi

theorem checkSignature_ok {signature : MethodSignature} :
    checkSignature signature = .ok () ↔ checkSignatureBounds signature = .ok () ∧
      checkDeclarations signature = .ok () ∧ checkAbi signature = .ok () := by
  unfold checkSignature
  rw [seq_ok, seq_ok, mapError_ok, mapError_ok, mapError_ok]

end HyperscaleVm.Effects.Publish

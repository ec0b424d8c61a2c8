import HyperscaleVm.Effects.Admission.Reaches

/-!
# What the instance reached keeps there (`effects/src/dsl.rs`, `effects/src/publish/package.rs`)
-/

namespace HyperscaleVm.Effects.Publish
open Option

section

variable {H : Hasher} {metadata : PackageMetadata} {instance_ : Address} {record : InstanceMeta}
  {n : Numbered} {parts : List Value} {value : Bool}

end

end HyperscaleVm.Effects.Publish

namespace HyperscaleVm.Effects.Admission
open Publish

def purseMethod (mode : ModeExpr) (denomination : Option Expr) : MethodSignature :=
  { MethodSignature.empty with
    params := [.resource]
    effects := [.effect none (.point (selfChild PACKAGE_SLOT_BASE (.single (.arg 0)))) mode
      denomination none] }

def pursePackage (signature : MethodSignature) : PackageMetadata :=
  .ofMethods [("open", signature)]

def holds : PackageMetadata := pursePackage (purseMethod (.delta .both) (some (.arg 0)))

end HyperscaleVm.Effects.Admission

import HyperscaleVm.Effects.Star.Shape
import HyperscaleVm.Kernel.Session.Buckets

/-!
# Supply and escrow (`kernel/src/supply.rs`, `escrow.rs`)
-/

namespace HyperscaleVm.Kernel
open Effects.Placement (Kind CrossingId)
open Library
open Std (ExtTreeMap ExtTreeSet)

def addTotal (totals : ExtTreeMap ResourceAddr ℕ) (resource : ResourceAddr) (amount : ℕ)
    (refusal : ModeError) : Except ModeError (ExtTreeMap ResourceAddr ℕ) :=
  if amount = 0 then .ok totals
  else
    match checkedAdd AMOUNT_BOUND (totals[resource]?.getD 0) amount with
    | some total => .ok (totals.insert resource total)
    | none => .error refusal

def resourcesOf (a b : List ResourceAddr) : List ResourceAddr :=
  ((a ++ b).foldl (fun (seen : ExtTreeSet ResourceAddr) resource => seen.insert resource) ∅).toList

structure SupplyDelta where
  minted : ExtTreeMap ResourceAddr ℕ
  burned : ExtTreeMap ResourceAddr ℕ

namespace SupplyDelta

def new : SupplyDelta := ⟨∅, ∅⟩

variable (d : SupplyDelta)

def mintedOf (resource : ResourceAddr) : ℕ := d.minted[resource]?.getD 0

def burnedOf (resource : ResourceAddr) : ℕ := d.burned[resource]?.getD 0

def resources : List ResourceAddr := resourcesOf d.minted.keys d.burned.keys

def mint (resource : ResourceAddr) (amount : ℕ) : Except ModeError SupplyDelta := do
  return { d with minted := ← addTotal d.minted resource amount .supplyOutOfBounds }

def burn (resource : ResourceAddr) (amount : ℕ) : Except ModeError SupplyDelta := do
  return { d with burned := ← addTotal d.burned resource amount .supplyOutOfBounds }

end SupplyDelta

structure Crossed where
  resource : ResourceAddr
  amount : ℕ
  deriving DecidableEq

structure EscrowDelta where
  issuedAt : ExtTreeMap (ℕ ×ₗ ℕ) Crossed
  claimed : ExtTreeMap ResourceAddr ℕ

namespace EscrowDelta

def new : EscrowDelta := ⟨∅, ∅⟩

variable (d : EscrowDelta)

def issues : List Crossed := d.issuedAt.toList.map Prod.snd

def issuedOf (resource : ResourceAddr) : ℕ :=
  ((d.issues.filter fun crossed => crossed.resource = resource).map Crossed.amount).foldl
    (saturatingAdd AMOUNT_BOUND) 0

def claimedOf (resource : ResourceAddr) : ℕ := d.claimed[resource]?.getD 0

def resources : List ResourceAddr :=
  resourcesOf ((d.issues.filter fun crossed => crossed.amount > 0).map Crossed.resource)
    d.claimed.keys

/-- An edge of nothing records the edge; a second issue of one edge replaces it. -/
def issue (node output : ℕ) (crossed : Crossed) : Except ModeError EscrowDelta :=
  match checkedAdd AMOUNT_BOUND (d.issuedOf crossed.resource) crossed.amount with
  | some _ => .ok { d with issuedAt := d.issuedAt.insert (toLex (node, output)) crossed }
  | none => .error .escrowOverflow

def claim (crossed : Crossed) : Except ModeError EscrowDelta := do
  return { d with claimed := ← addTotal d.claimed crossed.resource crossed.amount .escrowOverflow }

end EscrowDelta

structure Departure where
  record : SubstateKey
  id : CrossingId
  kind : Kind
  validityEndMs : ℕ

structure Arrival where
  crossed : Crossed
  claim : SubstateKey
  id : CrossingId
  kind : Kind
  never : Option SubstateKey
  validityEndMs : ℕ

inductive Terms where
  | escrowed (credit : SubstateKey)
  | owed

inductive Answered where
  | taken
  | never
  deriving DecidableEq

end HyperscaleVm.Kernel

import HyperscaleVm.Kernel.Session.Materialize

/-!
# Outcomes (`types/src/execution.rs`)
-/

namespace HyperscaleVm.Kernel
open Effects

/-- `AbortReason`, of the refusals a finish records. -/
inductive AbortReason where
  | malformedAmountCell
  | cellUnderflow
  | cellOverflow
  | supplyOutOfBounds
  | escrowOverflow
  | deltaTotalOverflow
  | valueDropped
  | valueNotConserved
  | authorityCellUnreadable
  deriving DecidableEq

def AbortReason.ofMode : ModeError → AbortReason
  | .badAmountCell _ => .malformedAmountCell
  | .deltaOverflow => .deltaTotalOverflow
  | .cellOverflow => .cellOverflow
  | .cellUnderflow => .cellUnderflow
  | .supplyOutOfBounds => .supplyOutOfBounds
  | .escrowOverflow => .escrowOverflow

inductive UnmetCondition where
  | holds (target : EffectTarget) (required : Presence) (node : Option ℕ)
  | satisfies (node : ℕ)
  | signedIn (account : Address)
  | unanswerable (node : Option ℕ)
  deriving DecidableEq

structure Answer where
  node : ℕ
  value : Bytes
  deriving DecidableEq

inductive Outcome where
  | completed (answers : List Answer)
  | userError (reason : AbortReason)
  | infeasible (key : SubstateKey) (amount : ℕ)
  | constraintUnmet (node param amount : ℕ)
  | declined (node code : ℕ)
  | nullifierSpent (key : SubstateKey)
  | protocolError (reason : AbortReason)
  | conditionUnmet (condition : UnmetCondition)
  | baselineDiscarded (flipped : TxHash)
  | escrowAlreadyClaimed (key : SubstateKey)
  | escrowAlreadyIssued (key : SubstateKey)
  deriving DecidableEq

def Outcome.isCompleted : Outcome → Bool
  | .completed _ => true
  | _ => false

inductive Fault where
  | floor
  | declaration (error : ModeError)
  | defect

def StoreError.fault : StoreError → Fault
  | .mode .cellUnderflow | .mode .cellOverflow | .heldExceedsCommitted _ => .floor
  | .mode (.badAmountCell length) => .declaration (.badAmountCell length)
  | _ => .defect

end HyperscaleVm.Kernel

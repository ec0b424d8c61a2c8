import HyperscaleVm.Effects.Admission.Graph
import HyperscaleVm.Kernel.Overlay
import HyperscaleVm.Types.Math

/-!
# Capabilities and refusals (`session/materialize.rs`, `grants.rs`, `trap.rs`)
-/

namespace HyperscaleVm.Kernel

structure Interval where
  width : ℕ
  owner : Address
  collection : ℕ
  lo : ℕ
  hi : ℕ
  cap : ℕ
  deriving DecidableEq

def Interval.holds (interval : Interval) (order : ℕ) : Bool :=
  interval.lo ≤ order && order ≤ interval.hi

inductive Capability where
  | read (key : SubstateKey)
  | write (key : SubstateKey)
  | amount (key : SubstateKey) (moves : Moves)
  | amountRead (key : SubstateKey)
  | delta (key : SubstateKey) (moves : Moves)
  | reserve (key : SubstateKey) (amount : ℕ)
  | rangeRead (interval : Interval)
  | rangeWrite (interval : Interval)
  | instances (interval : Interval) (moves : Moves)
  deriving DecidableEq

inductive Settlement where
  | immediate (key : SubstateKey)
  | queued (key : SubstateKey)
  deriving DecidableEq

namespace Capability

def key : Capability → Option SubstateKey
  | .read key | .write key | .amount key _ | .amountRead key | .delta key _ | .reserve key _ =>
    some key
  | .rangeRead _ | .rangeWrite _ | .instances _ _ => none

def owner : Capability → Address
  | .read key | .write key | .amount key _ | .amountRead key | .delta key _ | .reserve key _ =>
    key.owner
  | .rangeRead interval | .rangeWrite interval | .instances interval _ => interval.owner

def interval : Capability → Option Interval
  | .rangeRead interval | .rangeWrite interval | .instances interval _ => some interval
  | .read _ | .write _ | .amount _ _ | .amountRead _ | .delta _ _ | .reserve _ _ => none

def settlement : Capability → Option Settlement
  | .amount key _ => some (.immediate key)
  | .delta key _ => some (.queued key)
  | .read _ | .write _ | .amountRead _ | .reserve _ _ | .rangeRead _ | .rangeWrite _
  | .instances _ _ => none

end Capability

inductive Op where
  | read
  | write
  | clear
  | seal
  | openSeal
  | balance
  | take
  | put
  | reservedAmount
  | takeReserved
  | readEntries
  | writeEntries
  | fileInstances
  | takeInstances
  deriving DecidableEq

def grants (held : Capability) : Op → Bool
  | .read =>
    match held with
    | .read _ | .write _ => true
    | _ => false
  | .write | .clear | .seal | .openSeal =>
    match held with
    | .write _ => true
    | _ => false
  | .balance =>
    match held with
    | .amount _ _ | .amountRead _ => true
    | _ => false
  | .take =>
    match held with
    | .amount _ moves | .delta _ moves => moves.debits
    | _ => false
  | .put =>
    match held with
    | .amount _ moves | .delta _ moves => moves.credits
    | _ => false
  | .reservedAmount | .takeReserved =>
    match held with
    | .reserve _ _ => true
    | _ => false
  | .readEntries =>
    match held with
    | .rangeRead _ | .rangeWrite _ | .instances _ _ => true
    | _ => false
  | .writeEntries =>
    match held with
    | .rangeWrite _ => true
    | _ => false
  | .fileInstances =>
    match held with
    | .instances _ moves => moves.credits
    | _ => false
  | .takeInstances =>
    match held with
    | .instances _ moves => moves.debits
    | _ => false

inductive SessionTrap where
  | unknownHandle (rep : ℕ)
  | outsideFrame (rep : ℕ)
  | ungranted (site element : ℕ) (held : Capability) (attempted : Op)
  | outsideScope (site element : ℕ) (held : Capability)
  | sealStanding (site : ℕ)
  | notASeal (site : ℕ)
  | undeclaredBranch
  | wrongResource (cell carried : ResourceAddr)
  | bytesAsValue (site element : ℕ)
  | indexOutOfBounds (index count : ℕ)
  | orderOutsideInterval
  | writeCapExceeded (cap order : ℕ)
  | reservationMissing
  | reservationTaken
  | issuanceUngranted
  | wrongIssuanceKind
  | bucketUnderflow (amount held : ℕ)
  | bucketOverflow
  | wrongEdgeKind
  | instanceHeldTwice (id : ℕ)
  | instanceNotHeld (id : ℕ)
  | malformedIdSet
  | badAmountCell (key : SubstateKey)
  | cellUnderflow
  | cellOverflow (key : SubstateKey) (amount : ℕ)
  | noInvocation
  | eventTypeOutOfRange (eventType : ℕ)
  | tooManyEvents
  | eventPayloadTooLarge (length : ℕ)
  | eventBytesExceeded (bound : ℕ)
  | cellValueTooLarge (length width : ℕ)
  | shareAboveOne
  | math (error : MathError)
  | store (error : StoreError)
  | supply (error : ModeError)
  | crossingKeyRepeated (key : SubstateKey)
  | crossingWithoutRecourse (key : SubstateKey)
  | owedArrival (key : SubstateKey)
  deriving DecidableEq

end HyperscaleVm.Kernel

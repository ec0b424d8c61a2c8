import HyperscaleVm.Kernel.Session.Capability

/-!
# The bucket table (`session/buckets.rs`, `session/reach.rs`)
-/

namespace HyperscaleVm.Kernel
open Library

structure Reach where
  lent : Option (Finset ℕ)

namespace Reach

def whole : Reach := ⟨none⟩

def enter (_ : Reach) : Reach := ⟨some ∅⟩

def leave (_ : Reach) : Reach := ⟨none⟩

def lend (reach : Reach) (rep : ℕ) : Reach := ⟨reach.lent.map (insert rep)⟩

def holds (reach : Reach) (rep : ℕ) : Bool :=
  match reach.lent with
  | none => true
  | some lent => rep ∈ lent

end Reach

inductive Held where
  | amount (amount : ℕ)
  | instances (ids : Finset ℕ)

namespace Held

def quantity : Held → ℕ
  | .amount n => n
  | .instances ids => ids.card

def isEmpty (held : Held) : Bool := held.quantity = 0

end Held

structure Buckets where
  slots : List (Option Held)
  resources : List ResourceAddr
  origins : List (Option SubstateKey)
  reach : Reach

namespace Buckets

def new : Buckets := ⟨[], [], [], .whole⟩

variable (b : Buckets)

def enterFrame : Buckets := { b with reach := b.reach.enter }

def leaveFrame : Buckets := { b with reach := b.reach.leave }

def lend (rep : ℕ) : Buckets := { b with reach := b.reach.lend rep }

def opened (held : Held) (resource : ResourceAddr) (origin : Option SubstateKey) : Buckets × ℕ :=
  ({ slots := b.slots ++ [some held]
     resources := b.resources ++ [resource]
     origins := b.origins ++ [origin]
     reach := b.reach.lend b.slots.length }, b.slots.length)

def originOf (rep : ℕ) : Option SubstateKey := (b.origins[rep]?).getD none

/-- Existence is judged before reach. -/
def get (rep : ℕ) : Except SessionTrap Held :=
  match b.slots[rep]? with
  | some (some held) => if b.reach.holds rep then .ok held else .error (.outsideFrame rep)
  | _ => .error (.unknownHandle rep)

def amount (rep : ℕ) : Except SessionTrap ℕ := do
  match ← b.get rep with
  | .amount amount => .ok amount
  | .instances _ => .error .wrongEdgeKind

def resourceOf (rep : ℕ) : Except SessionTrap ResourceAddr :=
  match b.resources[rep]? with
  | some resource => if b.reach.holds rep then .ok resource else .error (.outsideFrame rep)
  | none => .error (.unknownHandle rep)

def take (rep : ℕ) : Except SessionTrap (Buckets × Held) := do
  let held ← b.get rep
  return ({ b with slots := b.slots.set rep none }, held)

def set (rep : ℕ) (held : Held) : Buckets := { b with slots := b.slots.set rep (some held) }

def divide (rep left off : ℕ) (resource : ResourceAddr) : Buckets × ℕ :=
  (b.set rep (.amount left)).opened (.amount off) resource (b.originOf rep)

def split (rep amount : ℕ) : Except SessionTrap (Buckets × ℕ) := do
  let held ← b.amount rep
  let resource ← b.resourceOf rep
  if amount ≤ held then .ok (b.divide rep (held - amount) amount resource)
  else .error (.bucketUnderflow amount held)

/-- The share rounds down and what stays is the difference. -/
def splitShare (rep num den : ℕ) : Except SessionTrap (Buckets × ℕ) := do
  let held ← b.amount rep
  if den = 0 then .error (.math .divideByZero)
  else if num > den then .error .shareAboveOne
  else
    let share := held * num / den
    if AMOUNT_BOUND ≤ share then .error (.math .overflow)
    else
      let resource ← b.resourceOf rep
      if share ≤ held then .ok (b.divide rep (held - share) share resource)
      else .error (.bucketUnderflow share held)

def merged : Held → Held → Except SessionTrap Held
  | .amount held, .amount added =>
    if held + added < AMOUNT_BOUND then .ok (.amount (held + added)) else .error .bucketOverflow
  | .instances held, .instances added =>
    match (ascending added).find? (· ∈ held) with
    | some id => .error (.instanceHeldTwice id)
    | none => .ok (.instances (held ∪ added))
  | _, _ => .error .wrongEdgeKind

def mixOrigin (rep other : ℕ) : Buckets :=
  if b.originOf rep = b.originOf other then b else { b with origins := b.origins.set rep none }

/-- The consumed bucket leaves before the other is read. -/
def merge (rep other : ℕ) : Except SessionTrap Buckets := do
  let into ← b.resourceOf rep
  let carried ← b.resourceOf other
  if into ≠ carried then .error (.wrongResource into carried)
  else
    let (left, added) ← (b.mixOrigin rep other).take other
    let held ← left.get rep
    let total ← merged held added
    return left.set rep total

def drop (rep : ℕ) : Except SessionTrap Buckets := do
  let held ← b.get rep
  if held.isEmpty then return (← b.take rep).1 else return b

def carriesValue : Bool := b.slots.any fun slot => slot.any fun held => !held.isEmpty

end Buckets

end HyperscaleVm.Kernel

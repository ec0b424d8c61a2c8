import HyperscaleVm.Types.Address

/-!
# Access modes and the conflict lattice (`types/src/mode.rs`)
-/

namespace HyperscaleVm

inductive Moves where
  | in
  | out
  | both
  deriving DecidableEq

def Moves.credits : Moves → Bool
  | .in | .both => true
  | .out => false

def Moves.debits : Moves → Bool
  | .out | .both => true
  | .in => false

inductive Mode where
  | read
  | delta (moves : Moves)
  | reserve (amount : ℕ)
  | write (moves : Moves)
  deriving DecidableEq

inductive Presence where
  | either
  | absent
  | present
  deriving DecidableEq

def Presence.meet : Presence → Presence → Option Presence
  | .either, met => some met
  | met, .either => some met
  | .absent, .absent => some .absent
  | .present, .present => some .present
  | .absent, .present | .present, .absent => none

/-- `met_by` (`kernel/src/session/materialize.rs`). -/
def metBy : Presence → Bool → Bool
  | .either, _ => true
  | .absent, held => !held
  | .present, held => held

inductive ModeKind where
  | read
  | delta
  | reserve
  | write
  deriving DecidableEq

/-- A direction is a movement parameter and never a scheduling one, exactly as a
reservation's amount is. -/
def Mode.kind : Mode → ModeKind
  | .read => .read
  | .delta _ => .delta
  | .reserve _ => .reserve
  | .write _ => .write

def Mode.moves : Mode → Option Moves
  | .read => none
  | .delta moves | .write moves => some moves
  | .reserve _ => some .out

def Moves.rank : Moves → ℕ
  | .in => 0
  | .out => 1
  | .both => 2

theorem Moves.rank_injective : Function.Injective Moves.rank := by
  intro a b h
  cases a <;> cases b <;> first | rfl | cases h

def Mode.bytes : Mode → List ℕ
  | .read => [0]
  | .delta moves => [1, moves.rank]
  | .reserve amount => [2, amount]
  | .write moves => [3, moves.rank]

theorem Mode.bytes_injective : Function.Injective Mode.bytes := by
  intro a b h
  match a, b with
  | .read, .read => rfl
  | .delta m, .delta m' => rw [Moves.rank_injective (List.cons.inj (List.cons.inj h).2).1]
  | .reserve n, .reserve n' => rw [(List.cons.inj (List.cons.inj h).2).1]
  | .write m, .write m' => rw [Moves.rank_injective (List.cons.inj (List.cons.inj h).2).1]
  | .read, .delta _ | .read, .reserve _ | .read, .write _ | .delta _, .read
  | .delta _, .reserve _ | .delta _, .write _ | .reserve _, .read | .reserve _, .delta _
  | .reserve _, .write _ | .write _, .read | .write _, .delta _ | .write _, .reserve _ =>
    exact absurd (List.cons.inj h).1 (by decide)

instance : LinearOrder Mode := LinearOrder.lift' Mode.bytes Mode.bytes_injective

def compatible : ModeKind → ModeKind → Bool
  | .read, .read => true
  | .delta, .delta | .delta, .reserve | .reserve, .delta | .reserve, .reserve => true
  | _, _ => false

theorem compatible_comm (a b : ModeKind) : compatible a b = compatible b a := by
  cases a <;> cases b <;> rfl

inductive ConflictClass where
  | read
  | movement
  | write
  deriving DecidableEq

namespace ConflictClass

def all : List ConflictClass := [.read, .movement, .write]

theorem mem_all (c : ConflictClass) : c ∈ all := by cases c <;> decide

def representative : ConflictClass → ModeKind
  | .read => .read
  | .movement => .delta
  | .write => .write

def conflictsWith (a b : ConflictClass) : Bool :=
  !compatible a.representative b.representative

theorem conflictsWith_comm (a b : ConflictClass) : a.conflictsWith b = b.conflictsWith a := by
  rw [conflictsWith, compatible_comm, conflictsWith]

end ConflictClass

def ModeKind.conflictClass : ModeKind → ConflictClass
  | .read => .read
  | .delta | .reserve => .movement
  | .write => .write

theorem compatible_eq_class (a b : ModeKind) :
    compatible a b = !a.conflictClass.conflictsWith b.conflictClass := by
  cases a <;> cases b <;> rfl

end HyperscaleVm

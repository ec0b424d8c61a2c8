import HyperscaleVm.Library.LittleEndian
import HyperscaleVm.Library.MapTotal
import HyperscaleVm.Types.Effect

/-!
# Amount cells, delta folds and feasibility (`kernel/src/modes.rs`, `types/src/amount.rs`)

An amount is sixteen little-endian bytes, and a zero balance is an absent cell.
-/

namespace HyperscaleVm.Kernel
open List Option Library

export Library (Bytes leBytes ofLeBytes length_leBytes ofLeBytes_leBytes ofLeBytes_lt)

abbrev TxHash := ℕ

def AMOUNT_CELL_BYTES : ℕ := 16

def encodeAmount (amount : ℕ) : Bytes := leBytes AMOUNT_CELL_BYTES amount

/-- Nothing at zero. -/
def amountCell (amount : ℕ) : Option Bytes :=
  if amount = 0 then none else some (encodeAmount amount)

def readAmount (bytes : Bytes) : Option ℕ :=
  if bytes.length = AMOUNT_CELL_BYTES then some (ofLeBytes bytes) else none

inductive ModeError where
  | badAmountCell (length : ℕ)
  | deltaOverflow
  | cellOverflow
  | cellUnderflow
  | supplyOutOfBounds
  | escrowOverflow
  deriving DecidableEq

def decodeAmount (bytes : Bytes) : Except ModeError ℕ :=
  match readAmount bytes with
  | some amount => .ok amount
  | none => .error (.badAmountCell bytes.length)

def cellAmount (cell : Option Bytes) : Except ModeError ℕ :=
  match cell with
  | some bytes => decodeAmount bytes
  | none => .ok 0

variable {amount : ℕ}

theorem cellAmount_lt {cell : Option Bytes} (h : cellAmount cell = .ok amount) :
    amount < AMOUNT_BOUND := by
  cases cell with
  | none =>
    cases h
    norm_num [AMOUNT_BOUND]
  | some bytes =>
    simp only [cellAmount, decodeAmount, readAmount] at h
    split at h
    · rename_i heq
      cases h
      split at heq
      · rename_i hlen
        obtain rfl := some.inj heq
        have hlt := ofLeBytes_lt bytes
        rw [hlen] at hlt
        exact hlt.trans_eq (by norm_num [AMOUNT_BOUND, AMOUNT_CELL_BYTES])
      · cases heq
    · cases h

theorem cellAmount_amountCell (h : amount < AMOUNT_BOUND) :
    cellAmount (amountCell amount) = .ok amount := by
  have hpow : AMOUNT_BOUND = 256 ^ AMOUNT_CELL_BYTES := by
    norm_num [AMOUNT_BOUND, AMOUNT_CELL_BYTES]
  unfold amountCell
  split
  · rename_i hzero
    rw [hzero]
    rfl
  · have hlen : (encodeAmount amount).length = AMOUNT_CELL_BYTES := length_leBytes _ _
    have hval : ofLeBytes (encodeAmount amount) = amount := ofLeBytes_leBytes (hpow ▸ h)
    simp only [cellAmount, decodeAmount, readAmount, hlen, if_true, hval]

inductive DeltaOp where
  | add (amount : ℕ)
  | sub (amount : ℕ)
  deriving DecidableEq

def addDelta (totals : ℕ × ℕ) : DeltaOp → Option (ℕ × ℕ)
  | .add amount => (checkedAdd AMOUNT_BOUND totals.1 amount).map fun credit => (credit, totals.2)
  | .sub amount => (checkedAdd AMOUNT_BOUND totals.2 amount).map fun debit => (totals.1, debit)

def deltaTotals (ops : List DeltaOp) : Except ModeError (ℕ × ℕ) :=
  match ops.foldlM addDelta (0, 0) with
  | some totals => .ok totals
  | none => .error .deltaOverflow

def foldDeltas (committed : ℕ) (ops : List DeltaOp) : Except ModeError ℕ := do
  let (credit, debit) ← deltaTotals ops
  match checkedAdd AMOUNT_BOUND committed credit with
  | none => .error .cellOverflow
  | some credited => if debit ≤ credited then .ok (credited - debit) else .error .cellUnderflow

def DeltaOp.credit : DeltaOp → ℕ
  | .add amount => amount
  | .sub _ => 0

def DeltaOp.debit : DeltaOp → ℕ
  | .add _ => 0
  | .sub amount => amount

variable {ops : List DeltaOp} {totals : ℕ × ℕ}

theorem foldlM_addDelta {credit debit : ℕ}
    (hcredit : credit < AMOUNT_BOUND) (hdebit : debit < AMOUNT_BOUND) :
    ops.foldlM addDelta (credit, debit) = some totals ↔
      totals = (credit + (ops.map DeltaOp.credit).sum, debit + (ops.map DeltaOp.debit).sum) ∧
        totals.1 < AMOUNT_BOUND ∧ totals.2 < AMOUNT_BOUND := by
  induction ops generalizing credit debit with
  | nil =>
    simp only [foldlM_nil, map_nil, sum_nil, add_zero]
    constructor
    · rintro ⟨⟩
      exact ⟨rfl, hcredit, hdebit⟩
    · rintro ⟨rfl, -, -⟩
      rfl
  | cons op ops ih =>
    rw [foldlM_cons]
    -- one total moves, and where it does not fit no later one does
    cases op with
    | add amount =>
      by_cases hfits : credit + amount < AMOUNT_BOUND
      · have hstep : addDelta (credit, debit) (.add amount) = some (credit + amount, debit) :=
          map_eq_some_iff.mpr ⟨_, (Library.checkedAdd_eq_some _).mpr ⟨rfl, hfits⟩, rfl⟩
        rw [hstep]
        simpa [DeltaOp.credit, DeltaOp.debit, add_assoc] using ih hfits hdebit
      · have hstep : addDelta (credit, debit) (.add amount) = none :=
          map_eq_none_iff.mpr (if_neg hfits)
        rw [hstep]
        refine iff_of_false nofun ?_
        rintro ⟨rfl, hlt, -⟩
        simp only [map_cons, sum_cons, DeltaOp.credit] at hlt
        omega
    | sub amount =>
      by_cases hfits : debit + amount < AMOUNT_BOUND
      · have hstep : addDelta (credit, debit) (.sub amount) = some (credit, debit + amount) :=
          map_eq_some_iff.mpr ⟨_, (Library.checkedAdd_eq_some _).mpr ⟨rfl, hfits⟩, rfl⟩
        rw [hstep]
        simpa [DeltaOp.credit, DeltaOp.debit, add_assoc] using ih hcredit hfits
      · have hstep : addDelta (credit, debit) (.sub amount) = none :=
          map_eq_none_iff.mpr (if_neg hfits)
        rw [hstep]
        refine iff_of_false nofun ?_
        rintro ⟨rfl, -, hlt⟩
        simp only [map_cons, sum_cons, DeltaOp.debit] at hlt
        omega

theorem deltaTotals_ok : deltaTotals ops = .ok totals ↔
    totals = ((ops.map DeltaOp.credit).sum, (ops.map DeltaOp.debit).sum) ∧
      totals.1 < AMOUNT_BOUND ∧ totals.2 < AMOUNT_BOUND := by
  have hzero : 0 < AMOUNT_BOUND := by norm_num [AMOUNT_BOUND]
  have hfold : ops.foldlM addDelta (0, 0) = some totals ↔ _ := foldlM_addDelta hzero hzero
  rw [zero_add, zero_add] at hfold
  rw [← hfold]
  unfold deltaTotals
  split
  · rename_i hsome
    rw [hsome, Except.ok.injEq, some.injEq]
  · rename_i hnone
    rw [hnone]
    exact iff_of_false nofun nofun

inductive Feasibility where
  | feasible
  | infeasible
  deriving DecidableEq

def judgeOrdered : ℕ → List (TxHash × ℕ) → List (TxHash × Feasibility)
  | _, [] => []
  | remaining, (tx, amount) :: requests =>
    if amount ≤ remaining then (tx, .feasible) :: judgeOrdered (remaining - amount) requests
    else (tx, .infeasible) :: judgeOrdered remaining requests

def Precedes (a b : ℕ × ℕ) : Prop := a.1 < b.1 ∨ a.1 = b.1 ∧ a.2 ≤ b.2
deriving Decidable

def canonical (requests : List (TxHash × ℕ)) : List (TxHash × ℕ) :=
  requests.insertionSort Precedes

def judge (available : ℕ) (requests : List (TxHash × ℕ)) : List (TxHash × Feasibility) :=
  judgeOrdered available (canonical requests)

end HyperscaleVm.Kernel

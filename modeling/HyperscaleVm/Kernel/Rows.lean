import HyperscaleVm.Kernel.OverlayRefinement

/-!
# What stands at one cell

The ledger acts cell by cell: an operation at a key reads and changes the row at
that key alone, so what it answers is a matter of the row.
-/

namespace HyperscaleVm.Kernel
open AmountLedger Library LedgerView
open Std (ExtTreeMap)

@[ext]
structure Row where
  cell : Option Bytes
  holds : ExtTreeMap TxHash ℕ
  feeHolds : FeeHolds
  withheld : WithheldCredits

namespace Row

variable (r : Row)

def setAmount (amount : ℕ) : Row := { r with cell := amountCell amount }

def setHold (tx : TxHash) (amount : Option ℕ) : Row :=
  { r with holds := changeHold r.holds tx amount }

def setFeeHold (tx : TxHash) (amount : Option ℕ) : Row :=
  { r with feeHolds := ⟨changeHold r.feeHolds.members tx amount, r.feeHolds.rest⟩ }

def withholdCredit (tx : TxHash) (amount : ℕ) : Row :=
  { r with withheld := r.withheld.insert tx amount }

end Row

theorem changeHold_dropped (holds : ExtTreeMap TxHash ℕ) (tx : TxHash) (n : ℕ) :
    changeHold (changeHold holds tx (some n)) tx none = changeHold holds tx none := by
  unfold changeHold
  ext a : 1
  simp only [ExtTreeMap.getElem?_erase, ExtTreeMap.getElem?_insert]
  split <;> rfl

def LedgerView.row (v : LedgerView) (key : SubstateKey) : Row :=
  ⟨v.cell key, v.holds key, v.feeHolds key, v.withheldCredits key⟩

section

variable (v : LedgerView) (key key' : SubstateKey)

theorem LedgerView.row_setAmount (amount : ℕ) : (v.setAmount key amount).row key' =
    if key' = key then (v.row key).setAmount amount else v.row key' := by
  by_cases h : key' = key
  · subst h
    simp [row, setAmount, Row.setAmount]
  · simp [row, setAmount, h]

variable (tx : TxHash)

theorem LedgerView.row_setHold (amount : Option ℕ) : (v.setHold key tx amount).row key' =
      if key' = key then (v.row key).setHold tx amount else v.row key' := by
  by_cases h : key' = key
  · subst h
    simp [row, setHold, Row.setHold]
  · simp [row, setHold, h]

theorem LedgerView.row_setFeeHold (amount : Option ℕ) : (v.setFeeHold key tx amount).row key' =
      if key' = key then (v.row key).setFeeHold tx amount else v.row key' := by
  by_cases h : key' = key
  · subst h
    simp [row, setFeeHold, Row.setFeeHold]
  · simp [row, setFeeHold, h]

theorem LedgerView.row_withholdCredit (amount : ℕ) : (v.withholdCredit key tx amount).row key' =
      if key' = key then (v.row key).withholdCredit tx amount else v.row key' := by
  by_cases h : key' = key
  · subst h
    simp [row, withholdCredit, Row.withholdCredit]
  · simp [row, withholdCredit, h]

end

section

variable {σ : Type} [AmountLedger σ]

def rowAt (s : σ) (key : SubstateKey) : Row := (view s).row key

variable {s s' : σ} {key key' : SubstateKey} {tx : TxHash}

theorem heldReservation_eq_row : heldReservation s key tx = (rowAt s key).holds[tx]? := rfl

def ChangesRow (s s' : σ) (key : SubstateKey) (f : Row → Row) : Prop :=
  ∀ key', rowAt s' key' = if key' = key then f (rowAt s key) else rowAt s key'

namespace ChangesRow

variable {s'' : σ} {f g : Row → Row}

theorem at_key (h : ChangesRow s s' key f) : rowAt s' key = f (rowAt s key) :=
  (h key).trans (if_pos rfl)

theorem other (h : ChangesRow s s' key f) (hne : key' ≠ key) : rowAt s' key' = rowAt s key' :=
  (h key').trans (if_neg hne)

theorem trans (h : ChangesRow s s' key f) (h' : ChangesRow s' s'' key g) :
    ChangesRow s s'' key (g ∘ f) := by
  intro key'
  rw [h' key', h.at_key]
  split
  · rfl
  · rename_i hne
    exact h.other hne

variable [LawfulAmountLedger σ] (s : σ) (key : SubstateKey) (tx : TxHash)

theorem of_setAmount (n : ℕ) : ChangesRow s (setAmount s key n) key (·.setAmount n) := by
  intro key'
  unfold rowAt
  rw [LawfulAmountLedger.view_setAmount, row_setAmount]

theorem of_setHold (n : Option ℕ) : ChangesRow s (setHold s key tx n) key (·.setHold tx n) := by
  intro key'
  unfold rowAt
  rw [LawfulAmountLedger.view_setHold, row_setHold]

theorem of_setFeeHold (n : Option ℕ) :
    ChangesRow s (setFeeHold s key tx n) key (·.setFeeHold tx n) := by
  intro key'
  unfold rowAt
  rw [LawfulAmountLedger.view_setFeeHold, row_setFeeHold]

theorem of_withholdCredit (n : ℕ) :
    ChangesRow s (withholdCredit s key tx n) key (·.withholdCredit tx n) := by
  intro key'
  unfold rowAt
  rw [LawfulAmountLedger.view_withholdCredit, row_withholdCredit]

theorem of_settled (cut left : ℕ) :
    ChangesRow s (setAmount (setHold (setHold s key tx (some cut)) key tx none) key left) key
      fun r => { r.setHold tx none with cell := amountCell left } := by
  have hsettled := ((of_setHold s key tx (some cut)).trans (of_setHold _ key tx none)).trans
    (of_setAmount _ key left)
  intro key'
  refine (hsettled key').trans ?_
  simp only [Function.comp_apply, Row.setAmount, Row.setHold, changeHold_dropped]

end ChangesRow

end

def amountOf (cell : Option Bytes) : ℕ := ((cell.bind readAmount)).getD 0

variable {cell : Option Bytes}

theorem amountOf_of_ok {a : ℕ} (h : cellAmount cell = .ok a) : amountOf cell = a := by
  cases cell with
  | none =>
    cases h
    rfl
  | some bytes =>
    simp only [cellAmount, decodeAmount] at h
    split at h
    · rename_i heq
      cases h
      simp [amountOf, heq]
    · cases h

theorem amountOf_amountCell {n : ℕ} (h : n < AMOUNT_BOUND) : amountOf (amountCell n) = n :=
  amountOf_of_ok (cellAmount_amountCell h)

structure Nets (credit debit : ℕ) (cell cell' : Option Bytes) : Prop where
  covered : debit ≤ amountOf cell + credit
  fits : amountOf cell + credit < AMOUNT_BOUND
  left : cell' = amountCell (amountOf cell + credit - debit)

variable {credit debit : ℕ} {cell' : Option Bytes}

theorem Nets.amountOf_eq
    (h : Nets credit debit cell cell') : amountOf cell' = amountOf cell + credit - debit := by
  have hlt := h.fits
  rw [h.left]
  exact amountOf_amountCell (by omega)

theorem Nets.andDebit {more : ℕ} {cell'' : Option Bytes}
    (h : Nets credit debit cell cell') (h' : Nets 0 more cell' cell'') :
    Nets credit (debit + more) cell cell'' := by
  have hmid := h.amountOf_eq
  have hcovered := h.covered
  have hmore := h'.covered
  refine ⟨by omega, h.fits, ?_⟩
  rw [h'.left]
  congr 1
  omega

theorem nets_of_judged {σ : Type} [AmountLedger σ] {s : σ} {key : SubstateKey} {tx : TxHash}
    {after : ℕ} (h : judgeMovement s key tx credit debit = .ok after) :
    Nets credit debit (rowAt s key).cell (amountCell after) := by
  obtain ⟨a, ha, hlt, rfl, -, hdebit⟩ := judgeMovement_ok h
  have hof : amountOf (rowAt s key).cell = a := amountOf_of_ok (mapError_ok.mp ha)
  rw [← hof] at hlt hdebit ⊢
  refine ⟨?_, hlt, rfl⟩
  omega

end HyperscaleVm.Kernel

import HyperscaleVm.Kernel.Modes

/-!
# The amount ledger (`kernel/src/ledger.rs`, `store.rs`)
-/

namespace HyperscaleVm.Kernel
open Library
open Std (ExtTreeMap ExtTreeSet)

structure FeeHolds where
  members : ExtTreeMap TxHash ℕ
  rest : ℕ
  deriving DecidableEq

def FeeHolds.none : FeeHolds := ⟨∅, 0⟩

/-- `FeeHolds::total`, saturating. -/
def FeeHolds.total (holds : FeeHolds) : ℕ :=
  (values holds.members).foldl (saturatingAdd AMOUNT_BOUND) holds.rest

abbrev WithheldCredits := ExtTreeMap TxHash ℕ

def withheldTotal (withheld : WithheldCredits) : ℕ :=
  (values withheld).foldl (saturatingAdd AMOUNT_BOUND) 0

def keptFrom (withheld : WithheldCredits) (tx : TxHash) : ℕ :=
  ((withheld.toList.filter fun p => p.1 ≠ tx).map Prod.snd).foldl (saturatingAdd AMOUNT_BOUND) 0

inductive StoreError where
  | missingReservation (tx : TxHash) (key : SubstateKey)
  | heldExceedsCommitted (key : SubstateKey)
  | duplicateRequest (tx : TxHash) (key : SubstateKey)
  | mode (error : ModeError)
  deriving DecidableEq

structure LedgerView where
  cell : SubstateKey → Option Bytes
  holds : SubstateKey → ExtTreeMap TxHash ℕ
  feeHolds : SubstateKey → FeeHolds
  withheldCredits : SubstateKey → WithheldCredits

def changeHold (holds : ExtTreeMap TxHash ℕ) (tx : TxHash) (amount : Option ℕ) :
    ExtTreeMap TxHash ℕ :=
  match amount with
  | some amount => holds.insert tx amount
  | none => holds.erase tx

namespace LedgerView

variable (v : LedgerView)

def setAmount (key : SubstateKey) (amount : ℕ) : LedgerView :=
  { v with cell := Function.update v.cell key (amountCell amount) }

def setHold (key : SubstateKey) (tx : TxHash) (amount : Option ℕ) : LedgerView :=
  { v with holds := Function.update v.holds key (changeHold (v.holds key) tx amount) }

def setFeeHold (key : SubstateKey) (tx : TxHash) (amount : Option ℕ) : LedgerView :=
  let standing := v.feeHolds key
  { v with feeHolds :=
      Function.update v.feeHolds key ⟨changeHold standing.members tx amount, standing.rest⟩ }

def withholdCredit (key : SubstateKey) (tx : TxHash) (amount : ℕ) : LedgerView :=
  { v with withheldCredits :=
      Function.update v.withheldCredits key ((v.withheldCredits key).insert tx amount) }

end LedgerView

/-- `AmountLedger`, over `Baseline`'s answers. -/
class AmountLedger (σ : Type) where
  view : σ → LedgerView
  setAmount : σ → SubstateKey → ℕ → σ
  setHold : σ → SubstateKey → TxHash → Option ℕ → σ
  setFeeHold : σ → SubstateKey → TxHash → Option ℕ → σ
  withholdCredit : σ → SubstateKey → TxHash → ℕ → σ
  note : σ → EffectTarget → ModeKind → σ
  queued : σ → ExtTreeMap SubstateKey (List DeltaOp)
  clearQueued : σ → σ

open AmountLedger

/-- What each store owes: its view after an operation is the view with it made. -/
class LawfulAmountLedger (σ : Type) [AmountLedger σ] : Prop where
  view_setAmount : ∀ (s : σ) key amount, view (setAmount s key amount) =
    (view s).setAmount key amount
  view_setHold : ∀ (s : σ) key tx amount, view (setHold s key tx amount) =
    (view s).setHold key tx amount
  view_setFeeHold : ∀ (s : σ) key tx amount, view (setFeeHold s key tx amount) =
    (view s).setFeeHold key tx amount
  view_withholdCredit : ∀ (s : σ) key tx amount, view (withholdCredit s key tx amount) =
    (view s).withholdCredit key tx amount
  view_note : ∀ (s : σ) target kind, view (note s target kind) = view s
  view_clearQueued : ∀ s : σ, view (clearQueued s) = view s

attribute [simp] LawfulAmountLedger.view_setAmount LawfulAmountLedger.view_setHold
  LawfulAmountLedger.view_setFeeHold LawfulAmountLedger.view_withholdCredit
  LawfulAmountLedger.view_note LawfulAmountLedger.view_clearQueued

section

variable {σ : Type} [AmountLedger σ]

def amount (s : σ) (key : SubstateKey) : Except StoreError ℕ :=
  (cellAmount ((view s).cell key)).mapError .mode

def heldReservation (s : σ) (key : SubstateKey) (tx : TxHash) : Option ℕ :=
  ((view s).holds key)[tx]?

def withQueued (s : σ) (key : SubstateKey) (committed : ℕ) : Except StoreError ℕ :=
  match (queued s)[key]? with
  | some ops => (foldDeltas committed ops).mapError .mode
  | none => .ok committed

def heldTotal (s : σ) (key : SubstateKey) : Except StoreError ℕ :=
  match (values ((view s).holds key)).foldlM (checkedAdd AMOUNT_BOUND) 0 with
  | some held => .ok held
  | none => .error (.heldExceedsCommitted key)

/-- Less every reservation, which it must cover, then less every fee hold and what is withheld, of
which it covers what it can. -/
def unpromised (s : σ) (key : SubstateKey) (standing withheld : ℕ) : Except StoreError ℕ := do
  let held ← heldTotal s key
  if held ≤ standing then .ok (standing - held - ((view s).feeHolds key).total - withheld)
  else .error (.heldExceedsCommitted key)

def credited (s : σ) (key : SubstateKey) (credit : ℕ) : Except StoreError ℕ := do
  let standing ← amount s key
  match checkedAdd AMOUNT_BOUND standing credit with
  | some credited => .ok credited
  | none => .error (.mode .cellOverflow)

def judgeMovement (s : σ) (key : SubstateKey) (tx : TxHash) (credit debit : ℕ) :
    Except StoreError ℕ := do
  let standing ← credited s key credit
  let free ← unpromised s key standing (keptFrom ((view s).withheldCredits key) tx)
  if debit > free then .error (.mode .cellUnderflow) else .ok (standing - debit)

def applyMovement (s : σ) (key : SubstateKey) (tx : TxHash) (credit debit : ℕ) :
    Except StoreError (σ × ℕ) := do
  let after ← judgeMovement s key tx credit debit
  return (setAmount s key after, after)

def reduceHold (s : σ) (key : SubstateKey) (tx : TxHash) (amount : ℕ) : σ :=
  setHold s key tx (some (min amount ((heldReservation s key tx).getD 0)))

def settle (s : σ) (key : SubstateKey) (tx : TxHash) : Except StoreError (σ × ℕ) :=
  match heldReservation s key tx with
  | none => .error (.missingReservation tx key)
  | some held => do
    let standing ← amount s key
    if held ≤ standing then .ok (setAmount (setHold s key tx none) key (standing - held), held)
    else .error (.heldExceedsCommitted key)

def release (s : σ) (key : SubstateKey) (tx : TxHash) : Except StoreError (σ × ℕ) :=
  match heldReservation s key tx with
  | none => .error (.missingReservation tx key)
  | some held => .ok (setHold s key tx none, held)

variable {s : σ} {key : SubstateKey}

theorem amount_lt {a : ℕ} (h : amount s key = .ok a) : a < AMOUNT_BOUND := by
  unfold amount at h
  cases hcell : cellAmount ((view s).cell key) with
  | error e => simp [hcell, Except.mapError] at h
  | ok b =>
    rw [hcell] at h
    cases h
    exact cellAmount_lt hcell

variable {held : ℕ}

theorem heldTotal_ok : heldTotal s key = .ok held ↔
      total ((view s).holds key) = held ∧ held < AMOUNT_BOUND := by
  have hpositive : 0 < AMOUNT_BOUND := by norm_num [AMOUNT_BOUND]
  have hfold : (values ((view s).holds key)).foldlM (Library.checkedAdd AMOUNT_BOUND) 0 =
    some held ↔
      0 + (values ((view s).holds key)).sum = held ∧ held < AMOUNT_BOUND :=
    Library.foldlM_checkedAdd AMOUNT_BOUND hpositive
  rw [Nat.zero_add] at hfold
  rw [← Library.total] at hfold
  rw [← hfold]
  unfold heldTotal
  split
  all_goals
    rename_i heq
    simp [heq]

theorem unpromised_ok {standing withheld free : ℕ}
    (h : unpromised s key standing withheld = .ok free) : total ((view s).holds key) ≤ standing ∧
      free = standing - total ((view s).holds key) - ((view s).feeHolds key).total - withheld := by
  obtain ⟨held, hheld, h⟩ := bind_ok.mp h
  obtain ⟨rfl, -⟩ := heldTotal_ok.mp hheld
  split at h
  · rename_i hle
    cases h
    exact ⟨hle, rfl⟩
  · cases h

variable {credit : ℕ}

theorem credited_ok {standing : ℕ} (h : credited s key credit = .ok standing) :
    ∃ a, amount s key = .ok a ∧ standing = a + credit ∧ standing < AMOUNT_BOUND := by
  obtain ⟨a, ha, h⟩ := bind_ok.mp h
  split at h
  · rename_i heq
    cases h
    obtain ⟨rfl, hlt⟩ := (Library.checkedAdd_eq_some _).mp heq
    exact ⟨a, ha, rfl, hlt⟩
  · cases h

variable {tx : TxHash}

theorem judgeMovement_ok {debit after : ℕ} (h : judgeMovement s key tx credit debit = .ok after) :
    ∃ a, amount s key = .ok a ∧ a + credit < AMOUNT_BOUND ∧ after = a + credit - debit ∧
      total ((view s).holds key) ≤ a + credit ∧
      debit ≤ a + credit - total ((view s).holds key) - ((view s).feeHolds key).total -
        keptFrom ((view s).withheldCredits key) tx := by
  obtain ⟨standing, hstanding, free, hfree, h⟩ := binds_ok.mp h
  obtain ⟨a, ha, rfl, hlt⟩ := credited_ok hstanding
  obtain ⟨hle, rfl⟩ := unpromised_ok hfree
  split at h
  · cases h
  · rename_i hdebit
    cases h
    exact ⟨a, ha, hlt, rfl, hle, Nat.not_lt.mp hdebit⟩

variable {s' : σ}

theorem applyMovement_ok {debit after : ℕ} : applyMovement s key tx credit debit = .ok (s', after) ↔
      judgeMovement s key tx credit debit = .ok after ∧ s' = setAmount s key after := by
  unfold applyMovement
  rw [bind_ok]
  constructor
  · rintro ⟨a, ha, h⟩
    cases h
    exact ⟨ha, rfl⟩
  · rintro ⟨ha, rfl⟩
    exact ⟨after, ha, rfl⟩

theorem settle_ok : settle s key tx = .ok (s', held) ↔ heldReservation s key tx = some held ∧
      ∃ standing, amount s key = .ok standing ∧ held ≤ standing ∧
        s' = setAmount (setHold s key tx none) key (standing - held) := by
  unfold settle
  cases hheld : heldReservation s key tx with
  | none => simp
  | some reserved =>
    simp only [Option.some.injEq]
    rw [bind_ok]
    constructor
    · rintro ⟨standing, hstanding, h⟩
      split at h
      · rename_i hle
        cases h
        exact ⟨rfl, standing, hstanding, hle, rfl⟩
      · cases h
    · rintro ⟨rfl, standing, hstanding, hle, rfl⟩
      exact ⟨standing, hstanding, if_pos hle⟩

theorem release_ok : release s key tx = .ok (s', held) ↔
      heldReservation s key tx = some held ∧ s' = setHold s key tx none := by
  unfold release
  cases hheld : heldReservation s key tx with
  | none => simp
  | some reserved => simp [eq_comm, and_comm]

abbrev Request := TxHash × SubstateKey × ℕ

def noteRequests : σ → List (TxHash × SubstateKey) → List Request → σ × Except StoreError Unit
  | s, _, [] => (s, .ok ())
  | s, seen, (tx, key, _) :: requests =>
    if seen.contains (tx, key) then (s, .error (.duplicateRequest tx key))
    else noteRequests (note s (.point key) .reserve) ((tx, key) :: seen) requests

def batchOn (requests : List Request) (key : SubstateKey) : List (TxHash × ℕ) :=
  requests.filterMap fun (tx, key', amount) => if key' = key then some (tx, amount) else none

def requestedKeys (requests : List Request) : List SubstateKey :=
  (requests.foldl (fun keys request => keys.insert request.2.1) (∅ : ExtTreeSet SubstateKey)).toList

def holdFeasible (s : σ) (key : SubstateKey) (batch : List (TxHash × ℕ))
    (verdicts : List (TxHash × Feasibility)) : σ :=
  verdicts.foldl (fun s (tx, verdict) =>
    match verdict with
    | .feasible =>
      setHold s key tx (some (((batch.find? fun p => p.1 = tx).map Prod.snd).getD 0))
    | .infeasible => s) s

def available (s : σ) (key : SubstateKey) : Except StoreError ℕ := do
  let standing ← amount s key
  unpromised s key standing (withheldTotal ((view s).withheldCredits key))

def judgeKeys (requests : List Request) : σ → List SubstateKey →
    List ((TxHash × SubstateKey) × Feasibility) →
    σ × Except StoreError (List ((TxHash × SubstateKey) × Feasibility))
  | s, [], judged => (s, .ok judged)
  | s, key :: keys, judged =>
    match available s key with
    | .error error => (s, .error error)
    | .ok free =>
      let batch := batchOn requests key
      let verdicts := judge free batch
      judgeKeys requests (holdFeasible s key batch verdicts) keys
        (judged ++ verdicts.map fun (tx, verdict) => ((tx, key), verdict))

def judgeAndHold (s : σ) (requests : List Request) :
    σ × Except StoreError (List ((TxHash × SubstateKey) × Feasibility)) :=
  match noteRequests s [] requests with
  | (s, .error error) => (s, .error error)
  | (s, .ok ()) => judgeKeys requests s (requestedKeys requests) []

structure AppliedDelta where
  key : SubstateKey
  before : ℕ
  after : ℕ

def foldQueued (s : σ) (key : SubstateKey) (ops : List DeltaOp) :
    Except StoreError AppliedDelta := do
  let before ← amount s key
  let after ← (foldDeltas before ops).mapError .mode
  return ⟨key, before, after⟩

def commitDeltas (s : σ) : Except StoreError (σ × List AppliedDelta) := do
  let applied ← (queued s).toList.mapM fun (key, ops) => foldQueued s key ops
  return (clearQueued (applied.foldl (fun s outcome => setAmount s outcome.key outcome.after) s),
    applied)

end

end HyperscaleVm.Kernel

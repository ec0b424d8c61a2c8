import HyperscaleVm.Kernel.Store

/-!
# The reservations on a cell stay covered
-/

namespace HyperscaleVm.Kernel
open AmountLedger List
open Library
open Std (ExtTreeMap)

def Solvent {σ : Type} [AmountLedger σ] (s : σ) (key : SubstateKey) : Prop :=
  ∃ a, amount s key = .ok a ∧ total ((view s).holds key) ≤ a

def granted (amountOf : TxHash → ℕ) (verdicts : List (TxHash × Feasibility)) : ℕ :=
  (verdicts.map fun p => if p.2 = .feasible then amountOf p.1 else 0).sum

theorem granted_judgeOrdered {amountOf : TxHash → ℕ} {requests : List (TxHash × ℕ)}
    {remaining : ℕ} (hamount : ∀ p ∈ requests, amountOf p.1 = p.2) :
    granted amountOf (judgeOrdered remaining requests) ≤ remaining := by
  induction requests generalizing remaining with
  | nil => simp [judgeOrdered, granted]
  | cons p requests ih =>
    obtain ⟨tx, amount⟩ := p
    have hhead : amountOf tx = amount := hamount _ mem_cons_self
    have htail : ∀ p ∈ requests, amountOf p.1 = p.2 :=
      fun p hp => hamount p (mem_cons_of_mem _ hp)
    simp only [judgeOrdered]
    split
    · rename_i hle
      have hrest : granted amountOf (judgeOrdered (remaining - amount) requests) ≤
          remaining - amount := ih htail
      simp only [granted, map_cons, if_true, hhead, sum_cons] at hrest ⊢
      omega
    · have hrest : granted amountOf (judgeOrdered remaining requests) ≤ remaining := ih htail
      simp only [granted, map_cons, reduceCtorEq, if_false, sum_cons] at hrest ⊢
      omega

theorem granted_judge (free : ℕ) {batch : List (TxHash × ℕ)} (hnodup : (batch.map Prod.fst).Nodup) :
    granted (fun tx => ((batch.find? fun p => p.1 = tx).map Prod.snd).getD 0) (judge free batch) ≤
      free := by
  refine granted_judgeOrdered fun p hp => ?_
  have hp : p ∈ batch := (mem_insertionSort _).mp hp
  obtain ⟨q, hfind⟩ : ∃ q, batch.find? (fun q => q.1 = p.1) = some q := by
    rw [← Option.isSome_iff_exists, find?_isSome]
    exact ⟨p, hp, by simp⟩
  have hq : q.1 = p.1 := by simpa using find?_some hfind
  have heq : q = p := inj_on_of_nodup_map hnodup (mem_of_find?_eq_some hfind) hp hq
  simp [hfind, heq]

section

variable {σ : Type} [AmountLedger σ] {s s' : σ} {key key' : SubstateKey}

def Untouched (key : SubstateKey) (s s' : σ) : Prop :=
  (view s').cell key = (view s).cell key ∧ (view s').holds key = (view s).holds key

theorem Untouched.refl : Untouched key s s := ⟨rfl, rfl⟩

theorem Untouched.trans {s'' : σ} (h : Untouched key s s') (h' : Untouched key s' s'') :
    Untouched key s s'' := ⟨h'.1.trans h.1, h'.2.trans h.2⟩

theorem Untouched.solvent (h : Untouched key s s') (hs : Solvent s key) : Solvent s' key := by
  obtain ⟨a, ha, hle⟩ := hs
  refine ⟨a, ?_, by rwa [h.2]⟩
  unfold amount at ha ⊢
  rwa [h.1]

variable [LawfulAmountLedger σ] {tx : TxHash} {held : Option ℕ}

theorem untouched_setHold (h : key' ≠ key) : Untouched key s (setHold s key' tx held) := by
  simp [Untouched, LedgerView.setHold, Function.update_of_ne h.symm]

variable {a : ℕ}

theorem untouched_setAmount (h : key' ≠ key) : Untouched key s (setAmount s key' a) := by
  simp [Untouched, LedgerView.setAmount, Function.update_of_ne h.symm]

theorem amount_setHold : amount (setHold s key' tx held) key = amount s key := by
  simp [amount, LedgerView.setHold]

theorem holds_setHold :
    (view (setHold s key tx held)).holds key = changeHold ((view s).holds key) tx held := by
  simp [LedgerView.setHold]

theorem holds_setAmount : (view (setAmount s key' a)).holds key = (view s).holds key := by
  simp [LedgerView.setAmount]

theorem amount_setAmount (h : a < AMOUNT_BOUND) : amount (setAmount s key a) key = .ok a := by
  simp [amount, LedgerView.setAmount, cellAmount_amountCell h, Except.mapError]

theorem total_changeHold_some (holds : ExtTreeMap TxHash ℕ) (tx : TxHash) (held : ℕ) :
    total (changeHold holds tx (some held)) + holds[tx]?.getD 0 = total holds + held :=
  total_insert

theorem total_changeHold_none (holds : ExtTreeMap TxHash ℕ) (tx : TxHash) :
    total (changeHold holds tx none) + holds[tx]?.getD 0 = total holds :=
  total_erase

theorem total_holdFeasible (s : σ) (key : SubstateKey) (batch : List (TxHash × ℕ))
    (verdicts : List (TxHash × Feasibility)) :
    total ((view (holdFeasible s key batch verdicts)).holds key) ≤ total ((view s).holds key) +
      granted (fun tx => ((batch.find? fun p => p.1 = tx).map Prod.snd).getD 0) verdicts ∧
    (view (holdFeasible s key batch verdicts)).cell = (view s).cell := by
  induction verdicts generalizing s with
  | nil => simp [holdFeasible, granted]
  | cons p verdicts ih =>
    obtain ⟨tx, verdict⟩ := p
    cases verdict with
    | feasible =>
      obtain ⟨hle, hcell⟩ := ih (setHold s key tx
        (some (((batch.find? fun p => p.1 = tx).map Prod.snd).getD 0)))
      have hadd := total_changeHold_some ((view s).holds key) tx
        (((batch.find? fun p => p.1 = tx).map Prod.snd).getD 0)
      rw [holds_setHold] at hle
      refine ⟨hle.trans ?_, hcell.trans (by simp [LedgerView.setHold])⟩
      simp only [granted, map_cons, if_true, sum_cons]
      omega
    | infeasible =>
      obtain ⟨hle, hcell⟩ := ih s
      refine ⟨hle.trans ?_, hcell⟩
      simp [granted]

variable {batch : List (TxHash × ℕ)}

theorem untouched_holdFeasible {verdicts : List (TxHash × Feasibility)} (h : key' ≠ key) :
    Untouched key s (holdFeasible s key' batch verdicts) := by
  induction verdicts generalizing s with
  | nil => exact .refl
  | cons p verdicts ih =>
    obtain ⟨tx, verdict⟩ := p
    cases verdict with
    | feasible => exact (untouched_setHold h).trans ih
    | infeasible => exact ih

theorem solvent_holdFeasible {free : ℕ}
    (hnodup : (batch.map Prod.fst).Nodup) (hfree : available s key = .ok free)
    (h : Solvent s key) : Solvent (holdFeasible s key batch (judge free batch)) key := by
  obtain ⟨a, ha, hle⟩ := h
  obtain ⟨a', ha', hfree⟩ := bind_ok.mp hfree
  obtain rfl : a = a' := Except.ok.inj (ha.symm.trans ha')
  obtain ⟨-, rfl⟩ := unpromised_ok hfree
  obtain ⟨htotal, hcell⟩ := total_holdFeasible s key batch (judge _ batch)
  have hgranted := granted_judge (a - total ((view s).holds key) -
    ((view s).feeHolds key).total - withheldTotal ((view s).withheldCredits key)) hnodup
  refine ⟨a, ?_, htotal.trans (by omega)⟩
  unfold amount at ha ⊢
  rwa [hcell]

variable {requests : List Request}

theorem solvent_judgeKeys {keys : List SubstateKey}
    {judged : List ((TxHash × SubstateKey) × Feasibility)}
    (hnodup : ∀ key, ((batchOn requests key).map Prod.fst).Nodup) (h : Solvent s key) :
    Solvent (judgeKeys requests s keys judged).1 key := by
  induction keys generalizing s judged with
  | nil => exact h
  | cons key' keys ih =>
    simp only [judgeKeys]
    split
    · exact h
    rename_i free hfree
    refine ih ?_
    by_cases hkey : key' = key
    · subst hkey
      exact solvent_holdFeasible (hnodup _) hfree h
    · exact (untouched_holdFeasible hkey).solvent h

theorem untouched_noteRequests {seen : List (TxHash × SubstateKey)} :
    Untouched key s (noteRequests s seen requests).1 := by
  induction requests generalizing s seen with
  | nil => exact .refl
  | cons request requests ih =>
    obtain ⟨tx, key', held⟩ := request
    simp only [noteRequests]
    split
    · exact .refl
    · refine Untouched.trans ?_ ih
      simp [Untouched]

omit [LawfulAmountLedger σ] in
theorem noteRequests_ok (s : σ) (seen : List (TxHash × SubstateKey)) (requests : List Request)
    (h : (noteRequests s seen requests).2 = .ok ()) : (requests.map fun r => (r.1, r.2.1)).Nodup ∧
      ∀ r ∈ requests, (r.1, r.2.1) ∉ seen := by
  induction requests generalizing s seen with
  | nil => simp
  | cons request requests ih =>
    obtain ⟨tx, key', held⟩ := request
    simp only [noteRequests] at h
    split at h
    · cases h
    rename_i hnew
    obtain ⟨hnodup, hfresh⟩ := ih _ _ h
    have hnew : (tx, key') ∉ seen := by simpa using hnew
    refine ⟨nodup_cons.mpr ⟨fun hmem => ?_, hnodup⟩, fun r hr => ?_⟩
    · obtain ⟨r, hr, heq⟩ := mem_map.mp hmem
      exact hfresh r hr (heq ▸ mem_cons_self)
    · rcases mem_cons.mp hr with rfl | hr
      · exact hnew
      · exact fun hmem => hfresh r hr (mem_cons_of_mem _ hmem)

theorem nodup_batchOn (h : (requests.map fun r => (r.1, r.2.1)).Nodup)
    (key : SubstateKey) : ((batchOn requests key).map Prod.fst).Nodup := by
  induction requests with
  | nil => simp [batchOn]
  | cons request requests ih =>
    obtain ⟨tx, key', held⟩ := request
    obtain ⟨hfresh, hnodup⟩ := nodup_cons.mp h
    by_cases hkey : key' = key
    · subst hkey
      have hbatch : batchOn ((tx, key', held) :: requests) key' =
          (tx, held) :: batchOn requests key' := by simp [batchOn]
      rw [hbatch, map_cons]
      refine nodup_cons.mpr ⟨fun hmem => hfresh ?_, ih hnodup⟩
      obtain ⟨p, hp, hfst⟩ := mem_map.mp hmem
      obtain ⟨r, hr, hsome⟩ := mem_filterMap.mp hp
      obtain ⟨tx', key'', held'⟩ := r
      refine mem_map.mpr ⟨_, hr, ?_⟩
      dsimp only at hsome ⊢
      split at hsome
      · rename_i hkey
        cases hsome
        have hfst : tx' = tx := hfst
        rw [hkey, hfst]
      · cases hsome
    · have hbatch : batchOn ((tx, key', held) :: requests) key = batchOn requests key := by
        simp [batchOn, hkey]
      rw [hbatch]
      exact ih hnodup

theorem solvent_judgeAndHold (h : Solvent s key) : Solvent (judgeAndHold s requests).1 key := by
  have hnoted : Untouched key s (noteRequests s [] requests).1 := untouched_noteRequests
  have hok := noteRequests_ok s [] requests
  unfold judgeAndHold
  split
  · rename_i s' error heq
    rw [heq] at hnoted
    exact hnoted.solvent h
  · rename_i s' heq
    rw [heq] at hnoted hok
    exact solvent_judgeKeys (nodup_batchOn (hok rfl).1) (hnoted.solvent h)

theorem solvent_applyMovement {credit debit after : ℕ}
    (happly : applyMovement s key' tx credit debit = .ok (s', after)) (h : Solvent s key) :
    Solvent s' key := by
  obtain ⟨hjudge, rfl⟩ := applyMovement_ok.mp happly
  by_cases hkey : key' = key
  · subst hkey
    obtain ⟨a, -, hlt, rfl, hheld, hdebit⟩ := judgeMovement_ok hjudge
    refine ⟨_, amount_setAmount (by omega), ?_⟩
    rw [holds_setAmount]
    omega
  · exact (untouched_setAmount hkey).solvent h

theorem solvent_setHold (h : Solvent s key)
    (hless : total (changeHold ((view s).holds key') tx held) ≤ total ((view s).holds key')) :
    Solvent (setHold s key' tx held) key := by
  by_cases hkey : key' = key
  · subst hkey
    obtain ⟨a, ha, hle⟩ := h
    refine ⟨a, by rwa [amount_setHold], ?_⟩
    rw [holds_setHold]
    exact hless.trans hle
  · exact (untouched_setHold hkey).solvent h

theorem solvent_reduceHold {held : ℕ} (h : Solvent s key) :
    Solvent (reduceHold s key' tx held) key := by
  refine solvent_setHold h ?_
  have htotal := total_changeHold_some ((view s).holds key') tx
    (min held ((heldReservation s key' tx).getD 0))
  unfold heldReservation at htotal ⊢
  omega

theorem solvent_settle {held : ℕ} (hsettle : settle s key' tx = .ok (s', held))
    (h : Solvent s key) : Solvent s' key := by
  obtain ⟨hheld, standing, hstanding, hle, rfl⟩ := settle_ok.mp hsettle
  by_cases hkey : key' = key
  · subst hkey
    obtain ⟨a, ha, hsum⟩ := h
    obtain rfl : standing = a := Except.ok.inj (hstanding.symm.trans ha)
    have hlt := amount_lt hstanding
    have htotal := total_changeHold_none ((view s).holds key') tx
    unfold heldReservation at hheld
    rw [hheld, Option.getD_some] at htotal
    refine ⟨_, amount_setAmount (by omega), ?_⟩
    rw [holds_setAmount, holds_setHold]
    omega
  · exact ((untouched_setHold hkey).trans (untouched_setAmount hkey)).solvent h

omit [LawfulAmountLedger σ] in
theorem settle_of_solvent {held : ℕ} (h : Solvent s key)
    (hheld : heldReservation s key tx = some held) : ∃ s', settle s key tx = .ok (s', held) := by
  obtain ⟨a, ha, hle⟩ := h
  exact ⟨_, settle_ok.mpr ⟨hheld, a, ha, (value_le_total hheld).trans hle, rfl⟩⟩

end

inductive LedgerOp where
  | judgeAndHold (requests : List Request)
  | applyMovement (key : SubstateKey) (tx : TxHash) (credit debit : ℕ)
  | reduceHold (key : SubstateKey) (tx : TxHash) (amount : ℕ)
  | settle (key : SubstateKey) (tx : TxHash)
  | release (key : SubstateKey) (tx : TxHash)

def LedgerOp.step {σ : Type} [AmountLedger σ] (s : σ) : LedgerOp → σ
  | .judgeAndHold requests => (Kernel.judgeAndHold s requests).1
  | .applyMovement key tx credit debit =>
    match Kernel.applyMovement s key tx credit debit with
    | .ok (s', _) => s'
    | .error _ => s
  | .reduceHold key tx amount => Kernel.reduceHold s key tx amount
  | .settle key tx =>
    match Kernel.settle s key tx with
    | .ok (s', _) => s'
    | .error _ => s
  | .release key tx =>
    match Kernel.release s key tx with
    | .ok (s', _) => s'
    | .error _ => s

variable {σ : Type} {key : SubstateKey}

theorem solvent_step [AmountLedger σ] [LawfulAmountLedger σ] {s : σ} (op : LedgerOp)
    (h : Solvent s key) : Solvent (op.step s) key := by
  cases op with
  | judgeAndHold requests => exact solvent_judgeAndHold h
  | applyMovement key' tx credit debit =>
    simp only [LedgerOp.step]
    split
    · rename_i heq
      exact solvent_applyMovement heq h
    · exact h
  | reduceHold key' tx held => exact solvent_reduceHold h
  | settle key' tx =>
    simp only [LedgerOp.step]
    split
    · rename_i heq
      exact solvent_settle heq h
    · exact h
  | release key' tx =>
    simp only [LedgerOp.step]
    split
    · rename_i heq
      obtain ⟨-, rfl⟩ := release_ok.mp heq
      exact solvent_setHold h (by have := total_changeHold_none ((view s).holds key') tx; omega)
    · exact h

theorem solvent_run [AmountLedger σ] [LawfulAmountLedger σ] {s : σ} (ops : List LedgerOp)
    (h : Solvent s key) :
    Solvent (ops.foldl LedgerOp.step s) key := by
  induction ops generalizing s with
  | nil => exact h
  | cons op ops ih => exact ih (solvent_step op h)

/-- Whatever run of ledger operations a store goes through from a covered cell, the
reservations standing on the cell still sum to at most its amount, and each of them
settles for all it holds. -/
theorem reservations_stay_covered {σ : Type} [AmountLedger σ] [LawfulAmountLedger σ] {s : σ}
    {key : SubstateKey} (h : Solvent s key) (ops : List LedgerOp) :
    Solvent (ops.foldl LedgerOp.step s) key ∧
      ∀ tx held, heldReservation (ops.foldl LedgerOp.step s) key tx = some held →
        ∃ s', settle (ops.foldl LedgerOp.step s) key tx = .ok (s', held) := by
  have hrun := solvent_run ops h
  exact ⟨hrun, fun tx held hheld => settle_of_solvent hrun hheld⟩

def coveredCell : SubstateKey := ⟨⟨1, .principal⟩, 0⟩

def sixtyInOneCell : MemoryStore := setAmount MemoryStore.new coveredCell 60

theorem reservations_on_sixty_stay_covered : Solvent sixtyInOneCell coveredCell ∧
      Solvent ([.judgeAndHold [(1, coveredCell, 50)], .applyMovement coveredCell 2 5 15,
        .settle coveredCell 1].foldl LedgerOp.step sixtyInOneCell) coveredCell := by
  have h : Solvent sixtyInOneCell coveredCell := by
    refine ⟨60, amount_setAmount (by norm_num [AMOUNT_BOUND]), ?_⟩
    rw [sixtyInOneCell, holds_setAmount]
    exact Nat.zero_le _
  exact ⟨h, (reservations_stay_covered h _).1⟩

end HyperscaleVm.Kernel

import HyperscaleVm.Kernel.Executor.Projection

/-!
# Movements netted (`types/src/writes.rs`)
-/

namespace HyperscaleVm.Kernel
open List Option Library

inductive Compose where
  | denomination
  | overflow

/-- `Movement` whole. -/
structure GrossMovement extends Movement where
  unjudgedDebit : ℕ

namespace GrossMovement

def checkedAdd (a b : ℕ) : Except Compose ℕ :=
  if a + b < AMOUNT_BOUND then .ok (a + b) else .error .overflow

/-- `then`: one movement after another on the same cell. -/
def andThen (m next : GrossMovement) : Except Compose GrossMovement :=
  if m.resource ≠ next.resource then .error .denomination
  else do
    let credit ← checkedAdd m.credit next.credit
    let debit ← checkedAdd m.debit next.debit
    let unjudgedDebit ← checkedAdd m.unjudgedDebit next.unjudgedDebit
    return ⟨⟨m.resource, credit, debit⟩, unjudgedDebit⟩

def land (m : GrossMovement) (before : ℕ) : Option (ℕ × ℕ) :=
  if m.debit ≤ m.credit then
    let net := m.credit - m.debit
    let room := AMOUNT_BOUND - 1 - before
    if room < net then some (AMOUNT_BOUND - 1, net - room) else some (before + net, 0)
  else if m.debit - m.credit ≤ before then some (before - (m.debit - m.credit), 0)
  else none

def apply (m : GrossMovement) (before : ℕ) : Option ℕ :=
  (m.land before).map fun landed => landed.1 - m.unjudgedDebit

def burned (m : GrossMovement) (before : ℕ) : ℕ := ((m.land before).map Prod.snd).getD 0

def taken (m : GrossMovement) (before : ℕ) : ℕ :=
  ((m.land before).map fun landed => min landed.1 m.unjudgedDebit).getD 0

inductive LandInTurn : List GrossMovement → ℕ → ℕ → Prop
  | nil (before : ℕ) : LandInTurn [] before before
  | cons {m : GrossMovement} {ms : List GrossMovement} {before between after : ℕ}
      (lands : m.apply before = some between) (whole : m.burned before = 0)
      (met : m.taken before = m.unjudgedDebit) (rest : LandInTurn ms between after) :
      LandInTurn (m :: ms) before after

variable {a b c m composed : GrossMovement} {before after : ℕ}

theorem andThen_eq (h : a.resource = b.resource) : a.andThen b =
    if a.credit + b.credit < AMOUNT_BOUND ∧ a.debit + b.debit < AMOUNT_BOUND ∧
      a.unjudgedDebit + b.unjudgedDebit < AMOUNT_BOUND then .ok ⟨⟨a.resource, a.credit + b.credit,
        a.debit + b.debit⟩, a.unjudgedDebit + b.unjudgedDebit⟩ else .error .overflow := by
  unfold andThen checkedAdd
  rw [if_neg (not_not.mpr h)]
  by_cases hcredit : a.credit + b.credit < AMOUNT_BOUND
  · by_cases hdebit : a.debit + b.debit < AMOUNT_BOUND
    · by_cases hunjudged : a.unjudgedDebit + b.unjudgedDebit < AMOUNT_BOUND
      · simp [hcredit, hdebit, hunjudged, bind, Except.bind, pure, Except.pure]
      · simp [hcredit, hdebit, hunjudged, bind, Except.bind]
    · simp [hcredit, hdebit, bind, Except.bind]
  · simp [hcredit, bind, Except.bind]

theorem andThen_ok (h : a.andThen b = .ok c) :
    c.credit = a.credit + b.credit ∧ c.debit = a.debit + b.debit ∧
      c.unjudgedDebit = a.unjudgedDebit + b.unjudgedDebit ∧ c.unjudgedDebit < AMOUNT_BOUND := by
  by_cases hresource : a.resource = b.resource
  · rw [andThen_eq hresource] at h
    split at h
    · rename_i hfits
      cases h
      exact ⟨rfl, rfl, rfl, hfits.2.2⟩
    · cases h
  · unfold andThen at h
    rw [if_pos hresource] at h
    cases h

theorem andThen_comm (h : a.resource = b.resource) : a.andThen b = b.andThen a := by
  rw [andThen_eq h, andThen_eq h.symm, h, Nat.add_comm a.credit, Nat.add_comm a.debit,
    Nat.add_comm a.unjudgedDebit]

theorem andThen_assoc (h : a.resource = b.resource) (h' : b.resource = c.resource) :
    (a.andThen b >>= (·.andThen c)) = (b.andThen c >>= a.andThen) := by
  have hleft := @andThen_eq ⟨⟨a.resource, a.credit + b.credit, a.debit + b.debit⟩,
    a.unjudgedDebit + b.unjudgedDebit⟩ c (h.trans h')
  have hright := @andThen_eq a ⟨⟨b.resource, b.credit + c.credit, b.debit + c.debit⟩,
    b.unjudgedDebit + c.unjudgedDebit⟩ h
  dsimp only at hleft hright
  rw [andThen_eq h, andThen_eq h']
  -- a sum within the width has every part of it within
  split <;> split <;> simp only [bind, Except.bind, hleft, hright, Nat.add_assoc]
  · rw [if_neg (by omega)]
  · rw [if_neg (by omega)]

theorem apply_conserves (hbefore : before < AMOUNT_BOUND) (h : m.apply before = some after) :
    after < AMOUNT_BOUND ∧
      after + m.burned before + m.taken before + m.debit = before + m.credit := by
  unfold apply burned taken at *
  obtain ⟨landed, hland, rfl⟩ := map_eq_some_iff.mp h
  rw [hland]
  unfold land at hland
  simp only [map_some, getD_some]
  split at hland
  · dsimp only at hland
    split at hland
    all_goals
      cases hland
      dsimp only
      omega
  split at hland
  · cases hland
    dsimp only
    omega
  · cases hland

variable {ms : List GrossMovement}

theorem LandInTurn.sum (h : LandInTurn ms before after) (hbefore : before < AMOUNT_BOUND) :
    after < AMOUNT_BOUND ∧ after + (ms.map (·.unjudgedDebit)).sum + (ms.map (·.debit)).sum =
      before + (ms.map (·.credit)).sum := by
  induction h with
  | nil => simpa using hbefore
  | cons lands whole met rest ih =>
    obtain ⟨hbetween, hone⟩ := apply_conserves hbefore lands
    obtain ⟨hafter, hrest⟩ := ih hbetween
    rw [whole, met] at hone
    simp only [map_cons, sum_cons]
    exact ⟨hafter, by omega⟩

theorem composed_sum (h : ms.foldlM andThen m = .ok composed)
    (hfits : m.unjudgedDebit < AMOUNT_BOUND) : composed.unjudgedDebit < AMOUNT_BOUND ∧
      composed.credit = m.credit + (ms.map (·.credit)).sum ∧
      composed.debit = m.debit + (ms.map (·.debit)).sum ∧
      composed.unjudgedDebit = m.unjudgedDebit + (ms.map (·.unjudgedDebit)).sum := by
  induction ms generalizing m with
  | nil =>
    cases h
    simpa using hfits
  | cons next ms ih =>
    rw [foldlM_cons] at h
    obtain ⟨joined, hjoined, h⟩ := bind_ok.mp h
    obtain ⟨hcredit, hdebit, hunjudged, hless⟩ := andThen_ok hjoined
    obtain ⟨hlt, hcredits, hdebits, hunjudgeds⟩ := ih h hless
    simp only [map_cons, sum_cons]
    exact ⟨hlt, by omega, by omega, by omega⟩

/-- The composition lands wherever its movements do in turn, and falls short of them by what it
burns itself. -/
theorem composed_apply (h : ms.foldlM andThen m = .ok composed)
    (hfits : m.unjudgedDebit < AMOUNT_BOUND) (hbefore : before < AMOUNT_BOUND)
    (hturn : LandInTurn (m :: ms) before after) :
    ∃ settled, composed.apply before = some settled ∧ settled + composed.burned before = after := by
  obtain ⟨hlt, hcredit, hdebit, hunjudged⟩ := composed_sum h hfits
  obtain ⟨hafter, hsum⟩ := hturn.sum hbefore
  simp only [map_cons, sum_cons] at hsum
  unfold apply burned land
  by_cases hnet : composed.debit ≤ composed.credit
  · rw [if_pos hnet]
    dsimp only
    by_cases hroom : AMOUNT_BOUND - 1 - before < composed.credit - composed.debit
    · rw [if_pos hroom]
      exact ⟨_, rfl, by dsimp only [map_some, getD_some]; omega⟩
    · rw [if_neg hroom]
      exact ⟨_, rfl, by dsimp only [map_some, getD_some]; omega⟩
  · rw [if_neg hnet, if_pos (by omega)]
    exact ⟨_, rfl, by dsimp only [map_some, getD_some]; omega⟩

end GrossMovement
open GrossMovement

/-- Composition is associative and commutative in one resource, settles as its movements do in
turn exactly where it burns nothing itself, and nothing is lost where a movement lands. -/
theorem netting_agrees_unless_it_burns :
    (∀ a b c : GrossMovement, a.resource = b.resource → b.resource = c.resource →
      a.andThen b = b.andThen a ∧ (a.andThen b >>= (·.andThen c)) = (b.andThen c >>= a.andThen)) ∧
    (∀ (m composed : GrossMovement) (ms : List GrossMovement) (before after : ℕ),
      m.unjudgedDebit < AMOUNT_BOUND → before < AMOUNT_BOUND →
      ms.foldlM andThen m = .ok composed → LandInTurn (m :: ms) before after →
      (composed.apply before = some after ↔ composed.burned before = 0)) ∧
    ∀ (m : GrossMovement) (before after : ℕ), before < AMOUNT_BOUND →
      m.apply before = some after →
      after + m.burned before + m.taken before + m.debit = before + m.credit := by
  refine ⟨fun a b c h h' => ⟨andThen_comm h, andThen_assoc h h'⟩,
    fun m composed ms before after hfits hbefore h hturn => ?_,
    fun m before after hbefore h => (apply_conserves hbefore h).2⟩
  obtain ⟨settled, hsettled, hshort⟩ := composed_apply h hfits hbefore hturn
  rw [hsettled, some_inj]
  omega

theorem credits_net_before_a_fee :
    let fee : GrossMovement := ⟨⟨⟨⟨7, .resource⟩, rfl⟩, 0, 0⟩, 1⟩
    let credit : GrossMovement := ⟨⟨⟨⟨7, .resource⟩, rfl⟩, 5, 2⟩, 0⟩
    ∃ composed, [credit].foldlM andThen fee = .ok composed ∧ LandInTurn [fee, credit] 4 6 ∧
      composed.apply 4 = some 6 := by
  have hturn : LandInTurn [⟨⟨⟨⟨7, .resource⟩, rfl⟩, 0, 0⟩, 1⟩, ⟨⟨⟨⟨7, .resource⟩, rfl⟩, 5, 2⟩, 0⟩]
      4 6 := by
    refine @LandInTurn.cons _ _ _ 3 _ ?_ ?_ ?_ (.cons ?_ ?_ ?_ (.nil _)) <;> decide +kernel
  refine ⟨_, rfl, hturn, ?_⟩
  exact (netting_agrees_unless_it_burns.2.1 _ _ _ 4 6 (by decide) (by decide) rfl hturn).mpr
    (by decide +kernel)

/-- A fee off a full cell makes room for what is then credited; netted, the credit finds none. -/
theorem netting_burns_what_a_fee_made_room_for :
    let fee : GrossMovement := ⟨⟨⟨⟨7, .resource⟩, rfl⟩, 0, 0⟩, 1⟩
    let credit : GrossMovement := ⟨⟨⟨⟨7, .resource⟩, rfl⟩, 1, 0⟩, 0⟩
    ∃ composed, fee.andThen credit = .ok composed ∧
      LandInTurn [fee, credit] (AMOUNT_BOUND - 1) (AMOUNT_BOUND - 1) ∧
      composed.apply (AMOUNT_BOUND - 1) = some (AMOUNT_BOUND - 2) := by
  refine ⟨_, rfl, @LandInTurn.cons _ _ _ (AMOUNT_BOUND - 2) _ ?_ ?_ ?_ (.cons ?_ ?_ ?_ (.nil _)),
    ?_⟩
  all_goals decide +kernel

end HyperscaleVm.Kernel

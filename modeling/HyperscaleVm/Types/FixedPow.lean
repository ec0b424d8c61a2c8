import HyperscaleVm.Library.Refusals
import HyperscaleVm.Types.Math
import Mathlib.Analysis.SpecialFunctions.Log.Base
import Mathlib.Tactic.FieldSimp

/-!
# Powers at the fixed scale (`types/src/math.rs`, `fixed_pow`)

Rounding at every multiplication keeps the power to one side of the exact one. How far off it may
be depends on how large the base is: an error is multiplied by every squaring after it.
-/

namespace HyperscaleVm
open Library

def FIXED_SCALE : U256 := .fromU128 (10 ^ 36)

def powLoop (rounding : Rounding) (remaining : ℕ) (result factor : U256) : Except MathError U256 :=
  if remaining = 0 then .ok result
  else
    (if remaining % 2 = 1 then mulDiv result factor FIXED_SCALE rounding else .ok result) >>=
      fun result =>
        if remaining / 2 = 0 then .ok result
        else mulDiv factor factor FIXED_SCALE rounding >>= powLoop rounding (remaining / 2) result
termination_by remaining

def fixedPow (base : U256) (exp : ℕ) (rounding : Rounding) : Except MathError U256 :=
  powLoop rounding exp FIXED_SCALE base

/-- `base^exp` at the scale, as it is before any rounding. -/
def exactPower (base : U256) (exp : ℕ) : ℚ := base.value ^ exp / (10 ^ 36) ^ ((exp : ℤ) - 1)

theorem exactPower_eq (base : U256) (exp : ℕ) :
    exactPower base exp = 10 ^ 36 * (base.value / 10 ^ 36) ^ exp := by
  rw [exactPower, zpow_sub₀ (by norm_num), zpow_natCast, zpow_one, div_pow]
  field_simp

theorem value_scale : (FIXED_SCALE.value : ℚ) = 10 ^ 36 := by
  rw [show FIXED_SCALE.value = 10 ^ 36 by decide]
  norm_num

/-- One side of a rounding. -/
def Rounding.Bounds : Rounding → ℚ → ℚ → Prop
  | .down, rounded, exact => rounded ≤ exact
  | .up, rounded, exact => exact ≤ rounded

variable {rounding : Rounding}

theorem Rounding.Bounds.mul {a b c d : ℚ} (h : rounding.Bounds a b)
    (h' : rounding.Bounds c d) (ha : 0 ≤ a) (hb : 0 ≤ b) (hc : 0 ≤ c) (hd : 0 ≤ d) :
    rounding.Bounds (a * c) (b * d) := by
  cases rounding with
  | down => exact mul_le_mul h h' hc hb
  | up => exact mul_le_mul h h' hd ha

theorem Rounding.Bounds.trans {a b c : ℚ} (h : rounding.Bounds a b)
    (h' : rounding.Bounds b c) : rounding.Bounds a c := by
  cases rounding with
  | down => exact le_trans h h'
  | up => exact le_trans h' h

theorem Rounding.Bounds.pow {a b : ℚ} (h : rounding.Bounds a b) (ha : 0 ≤ a)
    (hb : 0 ≤ b) (m : ℕ) : rounding.Bounds ((a / 10 ^ 36) ^ m) ((b / 10 ^ 36) ^ m) := by
  cases rounding with
  | down | up =>
    exact pow_le_pow_left₀ (by positivity) (div_le_div_of_nonneg_right h (by positivity)) m

variable {a b z r result factor base : U256} {remaining exp : ℕ}

theorem Rounding.bounds_apply {x : ℚ} (hx : 0 ≤ x) :
    rounding.Bounds (rounding.apply x) x ∧ |(rounding.apply x : ℚ) - x| ≤ 1 := by
  cases rounding with
  | down =>
    have hle := Nat.floor_le hx
    have hlt := Nat.lt_floor_add_one x
    exact ⟨hle, (abs_sub_le_iff.mpr ⟨by linarith, by linarith⟩ : |((⌊x⌋₊ : ℕ) : ℚ) - x| ≤ 1)⟩
  | up =>
    have hle := Nat.le_ceil x
    have hlt := Nat.ceil_lt_add_one hx
    exact ⟨hle, (abs_sub_le_iff.mpr ⟨by linarith, by linarith⟩ : |((⌈x⌉₊ : ℕ) : ℚ) - x| ≤ 1)⟩

theorem mulDiv_scale : mulDiv a b FIXED_SCALE rounding = .ok z ↔
    z.value = rounding.apply (a.value * b.value / 10 ^ 36) := by
  rw [mulDiv_ok_iff (by decide), value_scale]

theorem mulDiv_overflows : Refuses (· = .overflow) (mulDiv a b FIXED_SCALE rounding) := by
  rcases mulDiv_cases (a := a) (b := b) (c := FIXED_SCALE) (by decide) rounding with
    ⟨z, hz, -⟩ | ⟨hz, -⟩
  · rw [hz]
    exact .ok z
  · rw [hz]
    exact .error rfl

theorem powLoop_overflows : Refuses (· = .overflow) (powLoop rounding remaining result factor) := by
  induction remaining using Nat.strong_induction_on generalizing result factor with
  | _ remaining ih =>
    rw [powLoop]
    split
    · exact .ok result
    · next hne =>
      refine Refuses.bind ?_ fun result' _ => ?_
      · split
        · exact mulDiv_overflows
        · exact .ok result
      · split
        · exact .ok result'
        · exact mulDiv_overflows.bind fun factor' _ => ih (remaining / 2) (by omega)

theorem powLoop_ok (hne : remaining ≠ 0) (h : powLoop rounding remaining result factor = .ok r) :
    ∃ result', (if remaining % 2 = 1 then mulDiv result factor FIXED_SCALE rounding
        else .ok result) = .ok result' ∧
      (remaining = 1 ∧ r = result' ∨ remaining / 2 ≠ 0 ∧ ∃ factor',
        mulDiv factor factor FIXED_SCALE rounding = .ok factor' ∧
          powLoop rounding (remaining / 2) result' factor' = .ok r) := by
  rw [powLoop, if_neg hne] at h
  obtain ⟨result', hresult, h⟩ := bind_ok.mp h
  refine ⟨result', hresult, ?_⟩
  split at h
  · next hlast => exact Or.inl ⟨by omega, (Except.ok.inj h).symm⟩
  · next hmore =>
    obtain ⟨factor', hfactor, h⟩ := bind_ok.mp h
    exact Or.inr ⟨hmore, factor', hfactor, h⟩

theorem powLoop_bounds (h : powLoop rounding remaining result factor = .ok r) :
    rounding.Bounds r.value (result.value * (factor.value / 10 ^ 36) ^ remaining) := by
  induction remaining using Nat.strong_induction_on generalizing result factor with
  | _ remaining ih =>
    by_cases hne : remaining = 0
    · subst hne
      rw [powLoop, if_pos rfl, Except.ok.injEq] at h
      rw [← h, pow_zero, mul_one]
      cases rounding <;> exact le_rfl
    obtain ⟨result', hresult, hnext⟩ := powLoop_ok hne h
    have htaken : rounding.Bounds result'.value
        (result.value * (factor.value / 10 ^ 36) ^ (remaining % 2)) := by
      split at hresult
      · next hodd =>
        rw [hodd, pow_one, ← mul_div_assoc, mulDiv_scale.mp hresult]
        exact (Rounding.bounds_apply (by positivity)).1
      · next heven =>
        rw [Nat.mod_two_ne_one.mp heven, pow_zero, mul_one, Except.ok.inj hresult]
        cases rounding <;> exact le_rfl
    rcases hnext with ⟨rfl, rfl⟩ | ⟨hmore, factor', hfactor, hnext⟩
    · exact htaken
    · have hsquared : rounding.Bounds factor'.value (factor.value * factor.value / 10 ^ 36) := by
        rw [mulDiv_scale.mp hfactor]
        exact (Rounding.bounds_apply (by positivity)).1
      refine (ih (remaining / 2) (by omega) hnext).trans ?_
      have hpower : (result.value * (factor.value / 10 ^ 36) ^ remaining : ℚ) =
          result.value * (factor.value / 10 ^ 36) ^ (remaining % 2) *
            (factor.value * factor.value / 10 ^ 36 / 10 ^ 36) ^ (remaining / 2) := by
        rw [show (factor.value * factor.value / 10 ^ 36 / 10 ^ 36 : ℚ) =
          (factor.value / 10 ^ 36) ^ 2 by
          ring, ← pow_mul, mul_assoc, ← pow_add, Nat.mod_add_div]
      rw [hpower]
      exact htaken.mul (hsquared.pow (by positivity) (by positivity) _) (by positivity)
        (by positivity) (by positivity) (by positivity)

theorem fixedPow_bounds (h : fixedPow base exp rounding = .ok r) :
    rounding.Bounds r.value (exactPower base exp) := by
  have hbounds := powLoop_bounds h
  rwa [value_scale, ← exactPower_eq] at hbounds

/-- A power rounded down is at most the exact one and a power rounded up at least it, and one past
the width is refused where it is rounded up. -/
theorem powers_bracket_the_exact (base : U256) (exp : ℕ) :
    (∀ r, fixedPow base exp .down = .ok r → (r.value : ℚ) ≤ exactPower base exp) ∧
      (∀ r, fixedPow base exp .up = .ok r → exactPower base exp ≤ r.value) ∧
        (2 ^ 256 ≤ exactPower base exp → fixedPow base exp .up = .error .overflow) := by
  refine ⟨fun r => fixedPow_bounds, fun r => fixedPow_bounds, fun hwide => ?_⟩
  cases h : fixedPow base exp .up with
  | error e => exact congrArg _ (powLoop_overflows e h)
  | ok r =>
    have hlt : (r.value : ℚ) < 2 ^ 256 := by exact_mod_cast r.value_lt
    exact absurd (hwide.trans (fixedPow_bounds h)) (not_le.mpr hlt)

/-- The most a product is off by where its sides stand for `x` and `y`, off by at most `e` and `d`:
a product by the scale and one the scale divides round nothing off. -/
def carried (x e y d : ℚ) : ℚ :=
  if x = 1 ∧ e = 0 then d
  else if e = 0 ∧ d = 0 ∧ (10 ^ 36 * (x * y)).isInt then 0
  else e * y + x * d + e * d / 10 ^ 36 + 1

section Drift
variable {e d x y : ℚ}

end Drift

section Large

end Large

end HyperscaleVm

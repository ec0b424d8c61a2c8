import Mathlib.Data.Nat.Bitwise
import Mathlib.Tactic.Linarith
import Mathlib.Tactic.LinearCombination
import Mathlib.Tactic.Ring

/-!
# Numbers as limbs

A number as 64-bit limbs, least first, and the loops a fixed-width implementation runs over them.
Each loop is stated by the numbers its limbs name.
-/

namespace HyperscaleVm.Library.Limbs
open List

def value : List UInt64 → ℕ
  | [] => 0
  | d :: ds => d.toNat + 2 ^ 64 * value ds

theorem value_lt (l : List UInt64) : value l < 2 ^ (64 * l.length) := by
  induction l with
  | nil => simp [value]
  | cons d ds ih =>
    have hd := d.toNat_lt
    rw [value, length_cons, Nat.mul_succ, pow_add]
    omega

variable {l : List UInt64}

theorem value_inj {r : List UInt64} (hlength : l.length = r.length) (h : value l = value r) :
    l = r := by
  induction l generalizing r with
  | nil => exact (eq_nil_of_length_eq_zero hlength.symm).symm
  | cons d ds ih =>
    cases r with
    | nil => cases hlength
    | cons e es =>
      have hd := d.toNat_lt
      have he := e.toNat_lt
      simp only [value] at h
      rw [ih (Nat.succ.inj hlength) (by omega), UInt64.toNat_inj.mp (by omega : d.toNat = e.toNat)]

@[simp] theorem value_replicate (n : ℕ) : value (List.replicate n 0) = 0 := by
  induction n with
  | zero => rfl
  | succ n ih => simp [replicate_succ, value, ih]

theorem value_append (l r : List UInt64) :
    value (l ++ r) = value l + 2 ^ (64 * l.length) * value r := by
  induction l with
  | nil => simp [value]
  | cons d ds ih =>
    rw [cons_append, value, ih, value, length_cons, Nat.mul_succ, pow_add]
    ring

theorem foldl_or_eq_zero (l : List UInt64) (d : UInt64) :
    l.foldl (· ||| ·) d = 0 ↔ d = 0 ∧ value l = 0 := by
  induction l generalizing d with
  | nil => simp [value]
  | cons e es ih =>
    rw [foldl_cons, ih, UInt64.or_eq_zero_iff, and_assoc, value, Nat.add_eq_zero_iff,
      ← UInt64.toNat_inj (a := e), UInt64.toNat_zero, mul_eq_zero, or_iff_right (by norm_num)]

theorem testBit_value (l : List UInt64) (i : ℕ) :
    (value l).testBit i = (l.getD (i / 64) 0).toNat.testBit (i % 64) := by
  induction l generalizing i with
  | nil => simp [value]
  | cons d ds ih =>
    rw [value, add_comm, Nat.testBit_two_pow_mul_add _ d.toNat_lt]
    split
    · next h => rw [Nat.div_eq_of_lt h, Nat.mod_eq_of_lt h, getD_cons_zero]
    · next h =>
      obtain ⟨k, rfl⟩ := Nat.exists_eq_add_of_le (not_lt.mp h)
      rw [Nat.add_sub_cancel_left, ih, Nat.add_mod_left, Nat.add_comm 64 k,
        Nat.add_div_right k (by norm_num), getD_cons_succ]

def overflowingAdd (a b : UInt64) : UInt64 × Bool := (a + b, decide (2 ^ 64 ≤ a.toNat + b.toNat))

def overflowingSub (a b : UInt64) : UInt64 × Bool := (a - b, decide (a < b))

/-- One limb of a sum or a difference: the two limbs, then the carry or the borrow. -/
def limbStep (op : UInt64 → UInt64 → UInt64 × Bool) (a b : UInt64) (carry : Bool) : UInt64 × Bool :=
  let first := op a b
  let second := op first.1 carry.toUInt64
  (second.1, first.2 || second.2)

def carryLoop (op : UInt64 → UInt64 → UInt64 × Bool) :
    List UInt64 → List UInt64 → Bool → List UInt64 × Bool
  | a :: as, b :: bs, carry =>
    let limb := limbStep op a b carry
    let rest := carryLoop op as bs limb.2
    (limb.1 :: rest.1, rest.2)
  | _, _, carry => ([], carry)

variable {op : UInt64 → UInt64 → UInt64 × Bool} {as bs : List UInt64}

theorem length_carryLoop (hlength : as.length = bs.length) (carry : Bool) :
    (carryLoop op as bs carry).1.length = as.length := by
  induction as generalizing bs carry with
  | nil => rfl
  | cons a as ih =>
    cases bs with
    | nil => cases hlength
    | cons b bs => simp [carryLoop, ih (Nat.succ.inj hlength)]

theorem carryLoop_eq {σ : ℤ} (hstep : ∀ a b carry, ((limbStep op a b carry).1.toNat : ℤ) +
      σ * 2 ^ 64 * (limbStep op a b carry).2.toNat = a.toNat + σ * (b.toNat + carry.toNat))
    (hlength : as.length = bs.length) (carry : Bool) : (value (carryLoop op as bs carry).1 : ℤ) +
        σ * 2 ^ (64 * as.length) * (carryLoop op as bs carry).2.toNat =
      value as + σ * (value bs + carry.toNat) := by
  induction as generalizing bs carry with
  | nil =>
    rw [eq_nil_of_length_eq_zero hlength.symm]
    simp [carryLoop, value]
  | cons a as ih =>
    cases bs with
    | nil => cases hlength
    | cons b bs =>
      have hrest := ih (Nat.succ.inj hlength) (limbStep op a b carry).2
      simp only [carryLoop, value, length_cons, Nat.mul_succ, pow_add, Nat.cast_add,
        Nat.cast_mul, Nat.cast_pow, Nat.cast_ofNat]
      linear_combination hstep a b carry + 2 ^ 64 * hrest

theorem toNat_toUInt64 (b : Bool) : b.toUInt64.toNat = b.toNat := by cases b <;> rfl

theorem addStep_eq (a b : UInt64) (carry : Bool) :
    ((limbStep overflowingAdd a b carry).1.toNat : ℤ) +
      1 * 2 ^ 64 * (limbStep overflowingAdd a b carry).2.toNat =
        a.toNat + 1 * (b.toNat + carry.toNat) := by
  have ha := a.toNat_lt
  have hb := b.toNat_lt
  have hc := carry.toNat_le
  simp only [limbStep, overflowingAdd, UInt64.toNat_add, toNat_toUInt64]
  by_cases h : 2 ^ 64 ≤ a.toNat + b.toNat <;>
    by_cases h' : 2 ^ 64 ≤ (a.toNat + b.toNat) % 2 ^ 64 + carry.toNat <;>
    simp only [h, h', decide_true, decide_false, Bool.or_true, Bool.or_false, Bool.toNat_true,
      Bool.toNat_false] <;> omega

theorem subStep_eq (a b : UInt64) (borrow : Bool) :
    ((limbStep overflowingSub a b borrow).1.toNat : ℤ) +
      -1 * 2 ^ 64 * (limbStep overflowingSub a b borrow).2.toNat =
        a.toNat + -1 * (b.toNat + borrow.toNat) := by
  have ha := a.toNat_lt
  have hb := b.toNat_lt
  have hc := borrow.toNat_le
  simp only [limbStep, overflowingSub, UInt64.toNat_sub, toNat_toUInt64, UInt64.lt_iff_toNat_lt]
  by_cases h : a.toNat < b.toNat <;>
    by_cases h' : (2 ^ 64 - b.toNat + a.toNat) % 2 ^ 64 < borrow.toNat <;>
    simp only [h, h', decide_true, decide_false, Bool.or_true, Bool.or_false, Bool.toNat_true,
      Bool.toNat_false] <;> omega

variable {k : ℕ}

theorem value_sub (hlength : as.length = bs.length) {z : ℕ}
    (hz : z < 2 ^ (64 * as.length)) (h : z + value bs = value as + 2 ^ (64 * as.length) * k) :
    value (carryLoop overflowingSub as bs false).1 = z := by
  have heq := carryLoop_eq subStep_eq hlength false
  have hlt := value_lt (carryLoop overflowingSub as bs false).1
  rw [length_carryLoop hlength] at hlt
  have hmod : value (carryLoop overflowingSub as bs false).1 + 2 ^ (64 * as.length) * k =
      z + 2 ^ (64 * as.length) * (carryLoop overflowingSub as bs false).2.toNat := by
    zify at h ⊢
    rw [Bool.toNat_false, Nat.cast_zero] at heq
    linarith
  have hcongr := congrArg (· % 2 ^ (64 * as.length)) hmod
  simpa only [Nat.add_mul_mod_self_left, Nat.mod_eq_of_lt hlt, Nat.mod_eq_of_lt hz] using hcongr

def mulRow (a : UInt64) : List UInt64 → List UInt64 → ℕ → List UInt64
  | b :: bs, d :: columns, carry =>
    let total := (a.toNat * b.toNat + d.toNat + carry) % 2 ^ 128
    UInt64.ofNat total :: mulRow a bs columns (total / 2 ^ 64)
  | _, _, carry => [UInt64.ofNat carry]

def mulLoop (bs : List UInt64) : List UInt64 → List UInt64 → List UInt64
  | [], columns => columns
  | a :: as, columns =>
    match mulRow a bs columns 0 with
    | [] => []
    | d :: columns => d :: mulLoop bs as columns

variable {columns : List UInt64}

theorem mulRow_eq {a : UInt64} (hlength : columns.length = bs.length)
    {carry : ℕ} (hcarry : carry < 2 ^ 64) : (mulRow a bs columns carry).length = bs.length + 1 ∧
      value (mulRow a bs columns carry) = a.toNat * value bs + value columns + carry := by
  induction bs generalizing columns carry with
  | nil =>
    rw [eq_nil_of_length_eq_zero hlength]
    simpa [mulRow, value] using hcarry
  | cons b bs ih =>
    cases columns with
    | nil => cases hlength
    | cons d columns =>
      -- the greatest column is the square of the greatest limb and two limbs more
      have hfits : a.toNat * b.toNat + d.toNat + carry < 2 ^ 128 := by
        have hab := Nat.mul_le_mul (Nat.le_of_lt_succ a.toNat_lt) (Nat.le_of_lt_succ b.toNat_lt)
        have hd := d.toNat_lt
        omega
      obtain ⟨hlen, hvalue⟩ := ih (Nat.succ.inj hlength)
        (Nat.div_lt_of_lt_mul (by omega) : (a.toNat * b.toNat + d.toNat + carry) / 2 ^ 64 < 2 ^ 64)
      simp only [mulRow, Nat.mod_eq_of_lt hfits, length_cons, hlen, value, hvalue,
        UInt64.toNat_ofNat', true_and, Nat.mul_add, Nat.mul_left_comm a.toNat]
      omega

theorem mulLoop_eq (hlength : columns.length = bs.length) :
    (mulLoop bs as columns).length = as.length + bs.length ∧
      value (mulLoop bs as columns) = value as * value bs + value columns := by
  induction as generalizing columns with
  | nil => simp [mulLoop, value, hlength]
  | cons a as ih =>
    obtain ⟨hlen, hvalue⟩ := mulRow_eq (a := a) hlength (by norm_num : 0 < 2 ^ 64)
    rw [mulLoop]
    cases hrow : mulRow a bs columns 0 with
    | nil =>
      rw [hrow] at hlen
      cases hlen
    | cons d rest =>
      rw [hrow, length_cons, Nat.succ_inj] at hlen
      rw [hrow, value] at hvalue
      obtain ⟨hlen', hvalue'⟩ := ih hlen
      simp only [length_cons, hlen', value, hvalue', Nat.add_mul, Nat.mul_add, Nat.mul_assoc]
      omega

def cmp : List UInt64 → List UInt64 → Ordering
  | a :: as, b :: bs =>
    match cmp as bs with
    | .eq => compare a.toNat b.toNat
    | unequal => unequal
  | _, _ => .eq

theorem cmp_eq (hlength : as.length = bs.length) : cmp as bs = compare (value as) (value bs) := by
  induction as generalizing bs with
  | nil =>
    rw [eq_nil_of_length_eq_zero hlength.symm]
    rfl
  | cons a as ih =>
    cases bs with
    | nil => cases hlength
    | cons b bs =>
      have ha := a.toNat_lt
      have hb := b.toNat_lt
      rw [cmp, ih (Nat.succ.inj hlength), value, value]
      rcases lt_trichotomy (value as) (value bs) with h | h | h
      · rw [compare_lt_iff_lt.mpr h]
        exact (compare_lt_iff_lt.mpr (by omega)).symm
      · rw [compare_eq_iff_eq.mpr h, h, ← cmp_eq_compare, ← cmp_eq_compare, cmp_add_right]
      · rw [compare_gt_iff_gt.mpr h]
        exact (compare_gt_iff_gt.mpr (by omega)).symm

def shiftLeft (d : UInt64) (bits : ℕ) : UInt64 := d <<< UInt64.ofNat bits

def shiftRight (d : UInt64) (bits : ℕ) : UInt64 := d >>> UInt64.ofNat bits

variable {d : UInt64} {bits : ℕ}

theorem toNat_shiftLeft (h : bits < 64) : (shiftLeft d bits).toNat = d.toNat <<< bits % 2 ^ 64 := by
  have hbits : bits % 2 ^ 64 % 64 = bits := by omega
  simp only [shiftLeft, UInt64.toNat_shiftLeft, UInt64.toNat_ofNat', hbits]

theorem toNat_shiftRight (h : bits < 64) : (shiftRight d bits).toNat = d.toNat >>> bits := by
  have hbits : bits % 2 ^ 64 % 64 = bits := by omega
  simp only [shiftRight, UInt64.toNat_shiftRight, UInt64.toNat_ofNat', hbits]

def bit (l : List UInt64) (index : ℕ) : Bool :=
  shiftRight (l.getD (index / 64) 0) (index % 64) &&& 1 == 1

theorem bit_eq (l : List UInt64) (index : ℕ) : bit l index = (value l).testBit index := by
  have hlt : index % 64 < 64 := Nat.mod_lt _ (by norm_num)
  rw [testBit_value, Nat.testBit_eq_decide_div_mod_eq, bit, Bool.eq_iff_iff, beq_iff_eq,
    decide_eq_true_eq,
    ← UInt64.toNat_inj, UInt64.toNat_and, toNat_shiftRight hlt, Nat.shiftRight_eq_div_pow]
  exact Eq.congr_left (Nat.and_one_is_mod _)

def orAt (l : List UInt64) (k : ℕ) (d : UInt64) : List UInt64 := l.modify k (· ||| d)

theorem value_orAt (hk : k < l.length) (d : UInt64) :
    value (orAt l k d) = value l ||| d.toNat <<< (64 * k) := by
  refine Nat.eq_of_testBit_eq fun i => ?_
  have hd := d.toNat_lt
  rw [Nat.testBit_or, testBit_value, testBit_value, Nat.testBit_shiftLeft, orAt,
    getD_eq_getElem?_getD, getD_eq_getElem?_getD, getElem?_modify]
  by_cases h : k = i / 64
  · subst h
    have hi : i - 64 * (i / 64) = i % 64 := by omega
    simp [hk, hi, Nat.mul_div_le]
  · have hhigh : 64 * k ≤ i → d.toNat.testBit (i - 64 * k) = false := fun hle =>
      Nat.testBit_lt_two_pow (hd.trans_le (Nat.pow_le_pow_right (by norm_num) (by omega)))
    simp only [h, if_false]
    by_cases hle : 64 * k ≤ i
    · simp [hhigh hle]
    · simp [hle]

def shlOne : List UInt64 → UInt64 → List UInt64
  | [], _ => []
  | d :: ds, carry => (shiftLeft d 1 ||| carry) :: shlOne ds (shiftRight d 63)

theorem shlOne_eq {carry : UInt64} (hcarry : carry.toNat < 2) : (shlOne l carry).length = l.length ∧
      value (shlOne l carry) = (2 * value l + carry.toNat) % 2 ^ (64 * l.length) := by
  induction l generalizing carry with
  | nil => simp [shlOne, value, Nat.mod_one]
  | cons d ds ih =>
    have hd := d.toNat_lt
    have hout : (shiftRight d 63).toNat = d.toNat / 2 ^ 63 := by
      rw [toNat_shiftRight (by norm_num), Nat.shiftRight_eq_div_pow]
    have hnext : (shiftRight d 63).toNat < 2 := by omega
    obtain ⟨hlen, hvalue⟩ := ih hnext
    have hlimb : (shiftLeft d 1 ||| carry).toNat = 2 * d.toNat % 2 ^ 64 + carry.toNat := by
      have heven : 2 * d.toNat % 2 ^ 64 = 2 ^ 1 * (d.toNat % 2 ^ 63) := by omega
      rw [UInt64.toNat_or, toNat_shiftLeft (by norm_num), Nat.shiftLeft_eq, pow_one,
        mul_comm, heven, Nat.two_pow_add_eq_or_of_lt hcarry]
    refine ⟨by simp [shlOne, hlen], ?_⟩
    rw [shlOne, value, hvalue, hlimb, hout, value, length_cons, Nat.mul_succ, pow_add,
      mul_comm (2 ^ (64 * ds.length)), Nat.mod_mul]
    have hlow : (2 * (d.toNat + 2 ^ 64 * value ds) + carry.toNat) % 2 ^ 64 =
        2 * d.toNat % 2 ^ 64 + carry.toNat := by omega
    have hhigh : (2 * (d.toNat + 2 ^ 64 * value ds) + carry.toNat) / 2 ^ 64 =
        2 * value ds + d.toNat / 2 ^ 63 := by omega
    rw [hlow, hhigh]

end HyperscaleVm.Library.Limbs

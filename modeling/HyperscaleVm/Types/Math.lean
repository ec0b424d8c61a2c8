import HyperscaleVm.Library.Limbs
import Mathlib.Algebra.Order.Floor.Div
import Mathlib.Algebra.Order.Floor.Semifield
import Mathlib.Data.Rat.Floor

/-!
# Wide integer arithmetic (`types/src/math.rs`)

Four limbs and eight, least significant first, and the operations the `math` interface offers over
them: each holds its product whole and rounds once.
-/

namespace HyperscaleVm
open Library List

inductive Rounding where
  | down
  | up

inductive MathError where
  | divideByZero
  | overflow
  deriving DecidableEq

structure Wide (n : ℕ) where
  limbs : List UInt64
  length : limbs.length = n
  deriving DecidableEq

abbrev U256 := Wide 4

abbrev U512 := Wide 8

namespace Wide

variable {n : ℕ} (x y : Wide n)

def value : ℕ := Limbs.value x.limbs

theorem value_lt : x.value < 2 ^ (64 * n) := by
  have h := Limbs.value_lt x.limbs
  rwa [x.length] at h

variable {x y}

theorem value_inj (h : x.value = y.value) : x = y := by
  obtain ⟨l, hl⟩ := x
  obtain ⟨r, rfl⟩ := y
  obtain rfl := Limbs.value_inj hl h
  rfl

variable (x y)

def zero : Wide n := ⟨List.replicate n 0, length_replicate⟩

@[simp] theorem value_zero : (zero : Wide n).value = 0 := Limbs.value_replicate n

def isZero : Bool := decide (x = zero)

theorem isZero_iff : x.isZero = true ↔ x.value = 0 := by
  rw [isZero, decide_eq_true_eq]
  refine ⟨fun h => h ▸ value_zero, fun h => value_inj (h.trans value_zero.symm)⟩

def cmp : Ordering := Limbs.cmp x.limbs y.limbs

theorem cmp_eq : x.cmp y = compare x.value y.value := Limbs.cmp_eq (x.length.trans y.length.symm)

def addLimbs : Wide n × Bool :=
  let sum := Limbs.carryLoop Limbs.overflowingAdd x.limbs y.limbs false
  (⟨sum.1, (Limbs.length_carryLoop (x.length.trans y.length.symm) _).trans x.length⟩, sum.2)

/-- `sub_limbs`, and `sub_limbs_wide` at the greater width. -/
def subLimbs : Wide n × Bool :=
  let difference := Limbs.carryLoop Limbs.overflowingSub x.limbs y.limbs false
  (⟨difference.1, (Limbs.length_carryLoop (x.length.trans y.length.symm) _).trans x.length⟩,
    difference.2)

variable {k : ℕ}

theorem value_subLimbs {z : ℕ} (hz : z < 2 ^ (64 * n))
    (h : z + y.value = x.value + 2 ^ (64 * n) * k) :
    (x.subLimbs y).1.value = z := by
  obtain ⟨l, rfl⟩ := x
  exact Limbs.value_sub y.length.symm hz h

def shlOne : Wide n := ⟨Limbs.shlOne x.limbs 0, (Limbs.shlOne_eq (by decide)).1.trans x.length⟩

theorem value_shlOne : x.shlOne.value = 2 * x.value % 2 ^ (64 * n) := by
  have h := (Limbs.shlOne_eq (l := x.limbs) (by decide : (0 : UInt64).toNat < 2)).2
  rwa [x.length] at h

/-- `limbs[k] |= d`. -/
def orAt (k : ℕ) (d : UInt64) : Wide n :=
  ⟨Limbs.orAt x.limbs k d, (length_modify ..).trans x.length⟩

theorem value_orAt (hk : k < n) (d : UInt64) :
    (x.orAt k d).value = x.value ||| d.toNat <<< (64 * k) :=
  Limbs.value_orAt (x.length.symm ▸ hk) d

theorem value_orLow {d : UInt64} (hn : 0 < n) (hx : 2 ^ k ∣ x.value) (hd : d.toNat < 2 ^ k) :
    (x.orAt 0 d).value = x.value + d.toNat := by
  obtain ⟨m, hm⟩ := hx
  rw [value_orAt _ hn, hm, mul_zero, Nat.shiftLeft_zero, Nat.two_pow_add_eq_or_of_lt hd]

theorem value_setBit {index : ℕ} (hindex : index < 64 * n) :
    (x.orAt (index / 64) (Limbs.shiftLeft 1 (index % 64))).value = x.value ||| 2 ^ index := by
  have hlt : 2 ^ (index % 64) < 2 ^ 64 := Nat.pow_lt_pow_right (by norm_num) (by omega)
  rw [value_orAt _ (by omega), Limbs.toNat_shiftLeft (by omega), UInt64.toNat_one,
    Nat.one_shiftLeft, Nat.mod_eq_of_lt hlt, Nat.shiftLeft_eq, ← pow_add, Nat.mod_add_div]

def bit (index : ℕ) : Bool := Limbs.bit x.limbs index

theorem bit_toNat (index : ℕ) : (x.bit index).toNat = x.value / 2 ^ index % 2 := by
  rw [bit, Limbs.bit_eq, Nat.toNat_testBit]
  rfl

end Wide

namespace U256

def ONE : U256 := ⟨[1, 0, 0, 0], rfl⟩

def checkedAdd (x y : U256) : Option U256 :=
  let sum := x.addLimbs y
  if sum.2 then none else some sum.1

/-- `mul_limbs`, over columns that start empty. -/
def wideningMul (x y : U256) : U512 :=
  ⟨Limbs.mulLoop y.limbs x.limbs (List.replicate 4 0), by
    rw [(Limbs.mulLoop_eq (y.length.symm ▸ length_replicate)).1, x.length, y.length]⟩

theorem value_wideningMul (x y : U256) : (x.wideningMul y).value = x.value * y.value := by
  have hlength : (List.replicate 4 (0 : UInt64)).length = y.limbs.length := y.length.symm
  have h : Limbs.value (Limbs.mulLoop y.limbs x.limbs _) = _ := (Limbs.mulLoop_eq hlength).2
  rwa [Limbs.value_replicate, add_zero] at h

def fromU128 (n : ℕ) : U256 := ⟨[UInt64.ofNat n, UInt64.ofNat (n / 2 ^ 64), 0, 0], rfl⟩

def toU128 (x : U256) : Option ℕ :=
  if x.limbs.getD 2 0 = 0 ∧ x.limbs.getD 3 0 = 0 then
    some ((x.limbs.getD 0 0).toNat + (x.limbs.getD 1 0).toNat * 2 ^ 64)
  else none

theorem value_fromU128 {n : ℕ} (h : n < 2 ^ 128) : (fromU128 n).value = n := by
  simp only [Wide.value, fromU128, Limbs.value, UInt64.toNat_ofNat', UInt64.toNat_zero]
  omega

theorem toU128_eq {x : U256} (h : x.value < 2 ^ 128) : x.toU128 = some x.value := by
  obtain ⟨_ | ⟨d₀, _ | ⟨d₁, _ | ⟨d₂, _ | ⟨d₃, ds⟩⟩⟩⟩, hlength⟩ := x <;>
    simp only [length_nil, length_cons] at hlength
  any_goals omega
  obtain rfl := length_eq_zero_iff.mp (by omega : ds.length = 0)
  simp only [Wide.value, Limbs.value] at h
  have h₂ : d₂ = 0 := UInt64.toNat_inj.mp (by rw [UInt64.toNat_zero]; omega)
  have h₃ : d₃ = 0 := UInt64.toNat_inj.mp (by rw [UInt64.toNat_zero]; omega)
  subst h₂ h₃
  simp only [toU128, Wide.value, Limbs.value, getD_cons_zero, getD_cons_succ, UInt64.toNat_zero]
  rw [if_pos ⟨trivial, trivial⟩]
  congr 1
  omega

end U256

namespace U512

theorem value_lt_square (x : U512) : x.value < 2 ^ 256 * 2 ^ 256 := by
  have h := x.value_lt
  rwa [show 64 * 8 = 256 + 256 from rfl, pow_add] at h

def fromU256 (n : U256) : U512 :=
  ⟨n.limbs ++ List.replicate 4 0, by rw [length_append, n.length, length_replicate]⟩

theorem value_fromU256 (n : U256) : (fromU256 n).value = n.value := by
  rw [Wide.value, fromU256, Limbs.value_append, Limbs.value_replicate, mul_zero, add_zero]
  rfl

def split (x : U512) : U256 × Bool :=
  (⟨x.limbs.take 4, by rw [length_take, x.length]; rfl⟩,
    decide ((x.limbs.drop 4).foldl (· ||| ·) 0 ≠ 0))

def narrow (x : U512) : Option U256 := if x.split.2 then none else some x.split.1

theorem value_split (x : U512) :
    x.value = x.split.1.value + 2 ^ 256 * Limbs.value (x.limbs.drop 4) := by
  have h := Limbs.value_append (x.limbs.take 4) (x.limbs.drop 4)
  rwa [take_append_drop, length_take, x.length] at h

theorem narrow_cases (x : U512) : (∃ y : U256, x.narrow = some y ∧ y.value = x.value) ∨
    x.narrow = none ∧ 2 ^ 256 ≤ x.value := by
  have hvalue := x.value_split
  have hhigh : x.split.2 = false ↔ Limbs.value (x.limbs.drop 4) = 0 := by
    rw [split, decide_eq_false_iff_not, not_not, Limbs.foldl_or_eq_zero, eq_self, true_and]
  unfold narrow
  cases h : x.split.2 with
  | false => exact Or.inl ⟨_, rfl, by rw [hvalue, hhigh.mp h, mul_zero, add_zero]⟩
  | true =>
    have hne : Limbs.value (x.limbs.drop 4) ≠ 0 := fun hzero => by
      rw [hhigh.mpr hzero] at h
      cases h
    exact Or.inr ⟨rfl, by omega⟩

def shiftIn (remainder : U256) (bit : Bool) : U256 :=
  if bit then remainder.shlOne.orAt 0 1 else remainder.shlOne

def divStep (x : U512) (divisor : U256) (state : U512 × U256) (index : ℕ) : U512 × U256 :=
  let carried := Limbs.shiftRight (state.2.limbs.getD 3 0) 63 == 1
  let remainder := shiftIn state.2 (x.bit index)
  if carried || remainder.cmp divisor != .lt then
    (state.1.orAt (index / 64) (Limbs.shiftLeft 1 (index % 64)), (remainder.subLimbs divisor).1)
  else (state.1, remainder)

def divLoop (x : U512) (divisor : U256) : ℕ → U512 × U256 → U512 × U256
  | 0, state => state
  | index + 1, state => divLoop x divisor index (divStep x divisor state index)

theorem value_shiftIn (r : U256) (b : Bool) :
    (shiftIn r b).value = (2 * r.value + b.toNat) % 2 ^ 256 := by
  have hshift := r.value_shlOne
  cases b with
  | false => simpa [shiftIn] using hshift
  | true =>
    rw [shiftIn, if_pos rfl, Wide.value_orLow _ (k := 1) (by norm_num) (by omega) (by decide),
      hshift, Bool.toNat_true, UInt64.toNat_one]
    omega

theorem carried_eq (r : U256) :
    (Limbs.shiftRight (r.limbs.getD 3 0) 63 == 1) = decide (2 ^ 255 ≤ r.value) := by
  have hbit := Limbs.testBit_value r.limbs 255
  have hr := r.value_lt
  have hd := (r.limbs.getD 3 0).toNat_lt
  rw [Nat.testBit_eq_decide_div_mod_eq, Nat.testBit_eq_decide_div_mod_eq, decide_eq_decide] at hbit
  rw [Bool.eq_iff_iff, beq_iff_eq, decide_eq_true_eq, ← UInt64.toNat_inj,
    Limbs.toNat_shiftRight (by norm_num), Nat.shiftRight_eq_div_pow]
  change r.value / 2 ^ 255 % 2 = 1 ↔ (r.limbs.getD 3 0).toNat / 2 ^ 63 % 2 = 1 at hbit
  change (r.limbs.getD 3 0).toNat / 2 ^ 63 = 1 ↔ 2 ^ 255 ≤ r.value
  omega

/-- The bits above `index` divided. -/
structure Divided (x : U512) (divisor : U256) (index : ℕ) (state : U512 × U256) : Prop where
  quotient : state.1.value = 2 ^ index * (x.value / 2 ^ index / divisor.value)
  remainder : state.2.value = x.value / 2 ^ index % divisor.value

variable {x : U512} {divisor : U256} {index : ℕ} {state : U512 × U256}

theorem Divided.step
    (hindex : index < 512) (hd : divisor.value ≠ 0) (h : Divided x divisor (index + 1) state) :
    Divided x divisor index (divStep x divisor state index) := by
  have hdlt := divisor.value_lt
  -- one bit further down the dividend
  have hnext : x.value / 2 ^ index = 2 * (x.value / 2 ^ (index + 1)) + (x.bit index).toNat := by
    rw [Wide.bit_toNat, pow_succ, ← Nat.div_div_eq_div_mul]
    omega
  have hrlt := Nat.mod_lt (x.value / 2 ^ (index + 1)) (pos_of_ne_zero hd)
  have hsplit := Nat.div_add_mod (x.value / 2 ^ (index + 1)) divisor.value
  rw [← h.remainder] at hrlt hsplit
  have hquotient := h.quotient
  have hbit := (x.bit index).toNat_le
  have hshifted := value_shiftIn state.2 (x.bit index)
  have hcond : ((Limbs.shiftRight (state.2.limbs.getD 3 0) 63 == 1 ||
      (shiftIn state.2 (x.bit index)).cmp divisor != .lt) = true) ↔
        divisor.value ≤ 2 * state.2.value + (x.bit index).toNat := by
    rw [Bool.or_eq_true, carried_eq, decide_eq_true_eq, Wide.cmp_eq, hshifted, bne_iff_ne, ne_eq,
      compare_lt_iff_lt, not_lt]
    omega
  dsimp only [divStep]
  split
  · next hge =>
    rw [hcond] at hge
    obtain ⟨hdiv, hmod⟩ := (Nat.div_mod_unique (pos_of_ne_zero hd)).mpr
      (⟨by rw [mul_add, mul_left_comm]; omega, by omega⟩ : 2 * state.2.value + (x.bit index).toNat -
        divisor.value +
        divisor.value * (2 * (x.value / 2 ^ (index + 1) / divisor.value) + 1) =
          x.value / 2 ^ index ∧
          2 * state.2.value + (x.bit index).toNat - divisor.value < divisor.value)
    refine ⟨?_, ?_⟩
    · rw [Wide.value_setBit _ hindex, hquotient, ← Nat.two_pow_add_eq_or_of_lt (by
        exact Nat.pow_lt_pow_right (by norm_num) (Nat.lt_succ_self index)), hdiv, pow_succ]
      ring
    · rw [hmod]
      exact Wide.value_subLimbs _ _ (by omega)
        (k := (2 * state.2.value + (x.bit index).toNat) / 2 ^ 256)
        (by rw [hshifted]; omega)
  · next hlt =>
    rw [hcond, not_le] at hlt
    obtain ⟨hdiv, hmod⟩ := (Nat.div_mod_unique (pos_of_ne_zero hd)).mpr
      (⟨by rw [mul_left_comm]; omega, hlt⟩ : 2 * state.2.value + (x.bit index).toNat +
        divisor.value * (2 * (x.value / 2 ^ (index + 1) / divisor.value)) = x.value / 2 ^ index ∧ _)
    refine ⟨?_, ?_⟩
    · rw [hquotient, hdiv, pow_succ]
      ring
    · rw [hmod, hshifted]
      omega

theorem Divided.run
    (hindex : index ≤ 512) (hd : divisor.value ≠ 0) (h : Divided x divisor index state) :
    Divided x divisor 0 (divLoop x divisor index state) := by
  induction index generalizing state with
  | zero => exact h
  | succ index ih => exact ih (by omega) (h.step hindex hd)

/-- The divisor is not zero: every caller has seen to it. -/
def divRem (x : U512) (divisor : U256) : U512 × U256 := divLoop x divisor 512 (Wide.zero, Wide.zero)

theorem divRem_eq (x : U512) (hd : divisor.value ≠ 0) :
    (x.divRem divisor).1.value = x.value / divisor.value ∧
      (x.divRem divisor).2.value = x.value % divisor.value := by
  have hx : x.value / 2 ^ 512 = 0 := by
    rw [show 512 = 256 + 256 from rfl, pow_add]
    exact Nat.div_eq_of_lt x.value_lt_square
  have hstart : Divided x divisor 512 (Wide.zero, Wide.zero) := by
    constructor
    · rw [hx, Nat.zero_div, mul_zero, Wide.value_zero]
    · rw [hx, Nat.zero_mod, Wide.value_zero]
  obtain ⟨hquotient, hremainder⟩ := hstart.run le_rfl hd
  rw [pow_zero, one_mul, Nat.div_one] at hquotient
  rw [pow_zero, Nat.div_one] at hremainder
  exact ⟨hquotient, hremainder⟩

def consume (x remainder : U512) (shift : ℕ) : U512 :=
  (remainder.shlOne.shlOne.orAt 0 (Limbs.shiftLeft (x.bit (shift + 1)).toUInt64 1)).orAt 0
    (x.bit shift).toUInt64

def trial (root : U256) : U512 := (fromU256 root.shlOne).shlOne.orAt 0 1

def isqrtStep (x : U512) (state : U256 × U512) (shift : ℕ) : U256 × U512 :=
  let remainder := consume x state.2 shift
  if remainder.cmp (trial state.1) != .lt then
    (state.1.shlOne.orAt 0 1, (remainder.subLimbs (trial state.1)).1)
  else (state.1.shlOne, remainder)

def isqrtRun (x : U512) : ℕ → U256 × U512
  | 0 => (Wide.zero, Wide.zero)
  | step + 1 => isqrtStep x (isqrtRun x step) (510 - step * 2)

def isqrt (x : U512) : U256 := (isqrtRun x 256).1

/-- The digits above `digit` rooted, in base four. -/
structure Rooted (x : U512) (digit : ℕ) (state : U256 × U512) : Prop where
  root : state.1.value = Nat.sqrt (x.value / 4 ^ digit)
  remainder : state.2.value + state.1.value * state.1.value = x.value / 4 ^ digit

variable {digit : ℕ}

theorem value_consume {remainder : U512} (hroom : 4 * remainder.value + 3 < 2 ^ (64 * 8)) :
    (consume x remainder (2 * digit)).value = 4 * remainder.value + x.value / 4 ^ digit % 4 := by
  have hhigh : (Limbs.shiftLeft (x.bit (2 * digit + 1)).toUInt64 1).toNat =
      2 * (x.bit (2 * digit + 1)).toNat := by cases x.bit (2 * digit + 1) <;> rfl
  have hquad : remainder.shlOne.shlOne.value = 4 * remainder.value := by
    rw [Wide.value_shlOne, Wide.value_shlOne, Nat.mod_eq_of_lt (by omega : 2 * remainder.value < _),
      Nat.mod_eq_of_lt (by omega)]
    omega
  have hbits : x.value / 4 ^ digit % 4 =
      2 * (x.bit (2 * digit + 1)).toNat + (x.bit (2 * digit)).toNat := by
    rw [Wide.bit_toNat, Wide.bit_toNat, pow_succ, ← Nat.div_div_eq_div_mul, pow_mul,
      show 2 ^ 2 = 4 from rfl]
    omega
  have hb := (x.bit (2 * digit)).toNat_le
  have hb' := (x.bit (2 * digit + 1)).toNat_le
  have hfirst := Wide.value_orLow remainder.shlOne.shlOne (k := 2) (by norm_num) (by omega)
    (by rw [hhigh]; omega)
  rw [consume, Wide.value_orLow _ (k := 1) (by norm_num) (by omega)
    (by rw [Limbs.toNat_toUInt64]; omega), hfirst, hhigh, Limbs.toNat_toUInt64, hquad, hbits,
      add_assoc]

theorem value_trial {root : U256} (hroom : 2 * root.value < 2 ^ 256) :
    (trial root).value = 4 * root.value + 1 := by
  have hdouble : root.shlOne.value = 2 * root.value := by
    rw [Wide.value_shlOne]
    omega
  have hquad : (fromU256 root.shlOne).shlOne.value = 4 * root.value := by
    rw [Wide.value_shlOne, value_fromU256, hdouble]
    omega
  rw [trial, Wide.value_orLow _ (k := 1) (by norm_num) (by omega) (by decide), hquad,
    UInt64.toNat_one]

/-- Every value the step forms is the number it stands for: no bit is shifted out. -/
structure Lossless (x : U512) (digit : ℕ) (state : U256 × U512) : Prop where
  consumed : (consume x state.2 (2 * digit)).value = 4 * state.2.value + x.value / 4 ^ digit % 4
  doubled : state.1.shlOne.value = 2 * state.1.value
  trial : (trial state.1).value = 4 * state.1.value + 1

variable {state : U256 × U512}

theorem next_digit (x digit : ℕ) :
    x / 4 ^ digit = 4 * (x / 4 ^ (digit + 1)) + x / 4 ^ digit % 4 := by
  rw [pow_succ, ← Nat.div_div_eq_div_mul]
  omega

theorem Rooted.lossless (h : Rooted x (digit + 1) state) : Lossless x digit state := by
  obtain ⟨hroot, hremainder⟩ := h
  have hnext := next_digit x.value digit
  have hle := Nat.div_le_self x.value (4 ^ digit)
  obtain ⟨hlow, hhigh⟩ := Nat.eq_sqrt.mp hroot
  have hroom : 2 * state.1.value < 2 ^ 256 := by
    refine Nat.mul_self_lt_mul_self_iff.mp (lt_of_le_of_lt ?_ x.value_lt_square)
    calc 2 * state.1.value * (2 * state.1.value)
      _ = 4 * (state.1.value * state.1.value) := by ring
      _ ≤ x.value := by omega
  have hrest : state.2.value ≤ 2 * state.1.value := by nlinarith
  refine ⟨value_consume (by omega), ?_, value_trial hroom⟩
  rw [Wide.value_shlOne]
  omega

theorem Rooted.step (h : Rooted x (digit + 1) state) :
    Rooted x digit (isqrtStep x state (2 * digit)) := by
  obtain ⟨hconsume, hdouble, htrial⟩ := h.lossless
  obtain ⟨hroot, hremainder⟩ := h
  have hnext := next_digit x.value digit
  have hdigit := Nat.mod_lt (x.value / 4 ^ digit) (by norm_num : 0 < 4)
  obtain ⟨hlow, hhigh⟩ := Nat.eq_sqrt.mp hroot
  dsimp only [isqrtStep]
  rw [Wide.cmp_eq, hconsume, htrial]
  split
  · next hge =>
    rw [bne_iff_ne, ne_eq, compare_lt_iff_lt, not_lt] at hge
    have hadvanced : (state.1.shlOne.orAt 0 1).value = 2 * state.1.value + 1 := by
      rw [Wide.value_orLow _ (k := 1) (by norm_num) (by omega) (by decide), hdouble,
        UInt64.toNat_one]
    have hleft := Wide.value_subLimbs (consume x state.2 (2 * digit)) (trial state.1) (k := 0)
      (z := 4 * state.2.value + x.value / 4 ^ digit % 4 - (4 * state.1.value + 1))
      (lt_of_le_of_lt (Nat.sub_le _ _) (hconsume ▸ (consume x state.2 (2 * digit)).value_lt))
      (by rw [hconsume, htrial]; omega)
    refine ⟨?_, ?_⟩
    · rw [hadvanced, Nat.eq_sqrt]
      constructor <;> nlinarith
    · rw [hadvanced, hleft,
        show (2 * state.1.value + 1) * (2 * state.1.value + 1) =
          4 * (state.1.value * state.1.value) + (4 * state.1.value + 1) by ring]
      omega
  · next hlt =>
    rw [bne_iff_ne, ne_eq, compare_lt_iff_lt, not_not] at hlt
    refine ⟨?_, ?_⟩
    · rw [hdouble, Nat.eq_sqrt]
      constructor <;> nlinarith
    · rw [hdouble, hconsume, show 2 * state.1.value * (2 * state.1.value) =
        4 * (state.1.value * state.1.value) by ring]
      omega

theorem rooted_start (x : U512) : Rooted x 256 (Wide.zero, Wide.zero) := by
  have hx : x.value / 4 ^ 256 = 0 := by
    rw [show 4 = 2 * 2 from rfl, mul_pow]
    exact Nat.div_eq_of_lt x.value_lt_square
  constructor
  · rw [hx, Wide.value_zero, Nat.sqrt_zero]
  · rw [hx, Wide.value_zero, Wide.value_zero]

theorem rooted_run (x : U512) {step : ℕ} (hstep : step ≤ 256) :
    Rooted x (256 - step) (isqrtRun x step) := by
  induction step with
  | zero => exact rooted_start x
  | succ step ih =>
    have h := ih (by omega)
    rw [show 256 - step = 256 - (step + 1) + 1 by omega] at h
    rw [isqrtRun, show 510 - step * 2 = 2 * (256 - (step + 1)) by omega]
    exact h.step

end U512

def mulDiv (a b c : U256) (rounding : Rounding) : Except MathError U256 :=
  if c.isZero then .error .divideByZero
  else
    let divided := (a.wideningMul b).divRem c
    match divided.1.narrow with
    | none => .error .overflow
    | some quotient =>
      match rounding with
      | .down => .ok quotient
      | .up =>
        if divided.2.isZero then .ok quotient
        else (quotient.checkedAdd U256.ONE).elim (.error .overflow) .ok

def geometricMean (a b : U256) : U256 := (a.wideningMul b).isqrt

/-- The geometric mean is the largest number whose square the product holds, and no step on the way
to it overflows or loses a bit. -/
theorem geometric_mean_is_the_floor_of_the_root (a b : U256) :
    IsGreatest {r | r * r ≤ a.value * b.value} (geometricMean a b).value ∧
      ∀ step < 256,
        U512.Rooted (a.wideningMul b) (256 - step) (U512.isqrtRun (a.wideningMul b) step) ∧
        U512.Lossless (a.wideningMul b) (255 - step) (U512.isqrtRun (a.wideningMul b) step) := by
  have hroot := (U512.rooted_run (a.wideningMul b) le_rfl).root
  rw [Nat.sub_self, pow_zero, Nat.div_one, U256.value_wideningMul] at hroot
  refine ⟨?_, fun step hstep => ?_⟩
  · rw [geometricMean, U512.isqrt, hroot]
    exact ⟨Nat.sqrt_le _, fun r hr => Nat.le_sqrt.mpr hr⟩
  · have hrooted := U512.rooted_run (a.wideningMul b) hstep.le
    refine ⟨hrooted, U512.Rooted.lossless ?_⟩
    rwa [show 255 - step + 1 = 256 - step by omega]

def Rounding.apply (exact : ℚ) : Rounding → ℕ
  | .down => ⌊exact⌋₊
  | .up => ⌈exact⌉₊

theorem checkedAdd_cases (x y : U256) :
    (∃ z, x.checkedAdd y = some z ∧ z.value = x.value + y.value) ∨
    x.checkedAdd y = none ∧ 2 ^ 256 ≤ x.value + y.value := by
  have h := Limbs.carryLoop_eq Limbs.addStep_eq (x.length.trans y.length.symm) false
  rw [x.length, Bool.toNat_false] at h
  change ((x.addLimbs y).1.value : ℤ) + 1 * 2 ^ (64 * 4) * (x.addLimbs y).2.toNat = _ at h
  change _ = (x.value : ℤ) + 1 * (y.value + 0) at h
  cases hcarry : (x.addLimbs y).2 with
  | false =>
    rw [hcarry, Bool.toNat_false] at h
    exact Or.inl ⟨(x.addLimbs y).1, by simp [U256.checkedAdd, hcarry], by omega⟩
  | true =>
    rw [hcarry, Bool.toNat_true] at h
    exact Or.inr ⟨by simp [U256.checkedAdd, hcarry], by omega⟩

theorem natCeil_div {m d : ℕ} (hd : 0 < d) : ⌈(m / d : ℚ)⌉₊ = m ⌈/⌉ d := by
  refine eq_of_forall_ge_iff fun c => ?_
  rw [Nat.ceil_le, div_le_iff₀ (by exact_mod_cast hd), ceilDiv_le_iff_le_mul hd, mul_comm d]
  exact_mod_cast Iff.rfl

theorem ceil_div {m d : ℕ} (hd : 0 < d) :
    ⌈(m / d : ℚ)⌉₊ = if m % d = 0 then m / d else m / d + 1 := by
  have hmod := Nat.mod_lt m hd
  have hlast : d - 1 < d := Nat.sub_lt hd one_pos
  rw [natCeil_div hd, Nat.ceilDiv_eq_add_pred_div, Nat.add_sub_assoc hd, Nat.add_div hd,
    Nat.div_eq_of_lt hlast, Nat.mod_eq_of_lt hlast]
  split_ifs <;> omega

theorem mulDiv_cases {a b c : U256} (hc : c.value ≠ 0) (rounding : Rounding) :
    (∃ z, mulDiv a b c rounding = .ok z ∧
      z.value = rounding.apply (a.value * b.value / c.value)) ∨
    mulDiv a b c rounding = .error .overflow ∧
      2 ^ 256 ≤ rounding.apply (a.value * b.value / c.value) := by
  have hzero : ¬ c.isZero = true := fun h => hc (c.isZero_iff.mp h)
  obtain ⟨hquotient, hremainder⟩ := (a.wideningMul b).divRem_eq hc
  rw [U256.value_wideningMul] at hquotient hremainder
  have hfloor : ⌊(a.value * b.value / c.value : ℚ)⌋₊ = a.value * b.value / c.value := by
    rw [← Nat.cast_mul, Nat.floor_div_eq_div]
  have hceil := ceil_div (m := a.value * b.value) (pos_of_ne_zero hc)
  rw [Nat.cast_mul] at hceil
  rw [mulDiv, if_neg hzero]
  dsimp only
  rcases ((a.wideningMul b).divRem c).1.narrow_cases with ⟨quotient, hnarrow,
    hvalue⟩ | ⟨hnarrow, hge⟩
  · rw [hquotient] at hvalue
    rw [hnarrow]
    cases rounding with
    | down => exact Or.inl ⟨quotient, rfl, hvalue.trans hfloor.symm⟩
    | up =>
      dsimp only [Rounding.apply]
      rw [hceil, ← hremainder, ← hvalue]
      simp only [Wide.isZero_iff]
      split
      · exact Or.inl ⟨quotient, rfl, rfl⟩
      · rcases checkedAdd_cases quotient U256.ONE with ⟨z, hsum, hz⟩ | ⟨hsum, hge⟩
        · exact Or.inl ⟨z, by rw [hsum]; rfl, hz⟩
        · exact Or.inr ⟨by rw [hsum]; rfl, hge⟩
  · rw [hquotient] at hge
    rw [hnarrow]
    refine Or.inr ⟨rfl, ?_⟩
    cases rounding with
    | down => exact hge.trans hfloor.ge
    | up => exact hge.trans (hfloor.ge.trans (Nat.floor_le_ceil _))

variable {a b c z : U256} {rounding : Rounding}

theorem mulDiv_ok_iff (hc : c.value ≠ 0) : mulDiv a b c rounding = .ok z ↔
    z.value = rounding.apply (a.value * b.value / c.value) := by
  rcases mulDiv_cases hc rounding with ⟨z', hz, hvalue⟩ | ⟨hz, hge⟩
  · rw [hz, ← hvalue, Except.ok.injEq]
    exact ⟨fun h => h ▸ rfl, fun h => (Wide.value_inj h).symm⟩
  · rw [hz, ← not_iff_not]
    exact iff_of_true nofun (z.value_lt.trans_le hge).ne

theorem mulDiv_overflow_iff (hc : c.value ≠ 0) : mulDiv a b c rounding = .error .overflow ↔
    2 ^ 256 ≤ rounding.apply (a.value * b.value / c.value) := by
  rcases mulDiv_cases hc rounding with ⟨z', hz, hvalue⟩ | ⟨hz, hge⟩
  · rw [hz, ← hvalue, ← not_iff_not]
    exact iff_of_true nofun (not_le.mpr z'.value_lt)
  · exact iff_of_true hz hge

end HyperscaleVm

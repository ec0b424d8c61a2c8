import HyperscaleVm.Library.LittleEndian
import Mathlib.Data.Nat.Digits.Lemmas

/-!
# Wide numbers in decimal (`effects/src/types.rs`, `u256_decimal`)
-/

namespace HyperscaleVm.Effects
open Library

def carryByte : List ℕ → ℕ → List ℕ × ℕ
  | [], carry => ([], carry)
  | digit :: digits, carry =>
    let value := (digit * 256 + carry) % 2 ^ 32
    let rest := carryByte digits (value / 10)
    (value % 10 :: rest.1, rest.2)

def pushCarry (digits : List ℕ) (carry : ℕ) : Option (List ℕ) :=
  if carry = 0 then some digits
  else if digits.length < 78 then pushCarry (digits ++ [carry % 10]) (carry / 10)
  else none
termination_by carry

def u256Decimal (scaled : Vector UInt8 32) : Option String := do
  let digits ← scaled.toList.reverse.foldlM (fun digits byte =>
    let carried := carryByte digits byte.toNat
    pushCarry carried.1 carried.2) [0]
  return String.ofList (digits.reverse.filterMap fun digit =>
    if digit < 10 then some digit.digitChar else none)

def decimal (n : ℕ) : List ℕ := n % 10 :: Nat.digits 10 (n / 10)

theorem decimal_of_le {n : ℕ} (h : 10 ≤ n) : decimal n = n % 10 :: decimal (n / 10) := by
  rw [decimal, decimal, Nat.digits_def' (by norm_num) (by omega : 0 < n / 10)]

theorem byte_low (n c : ℕ) : (n % 10 * 256 + c) % 10 = (256 * n + c) % 10 := by omega

theorem byte_high (n c : ℕ) : 256 * (n / 10) + (n % 10 * 256 + c) / 10 = (256 * n + c) / 10 := by
  omega

theorem carryByte_digits {c : ℕ} (n : ℕ) (hc : c < 256) :
    (carryByte (Nat.digits 10 n) c).1 ++ Nat.digits 10 (carryByte (Nat.digits 10 n) c).2 =
      Nat.digits 10 (256 * n + c) := by
  induction n using Nat.strong_induction_on generalizing c with
  | _ n ih =>
    by_cases hn : n = 0
    · subst hn
      simp [carryByte]
    · have hvalue : (n % 10 * 256 + c) % 2 ^ 32 = n % 10 * 256 + c := Nat.mod_eq_of_lt (by omega)
      rw [Nat.digits_def' (by norm_num) (by omega : 0 < n),
        Nat.digits_def' (by norm_num) (by omega : 0 < 256 * n + c)]
      simp only [carryByte, hvalue, List.cons_append]
      rw [ih (n / 10) (by omega) (by omega : (n % 10 * 256 + c) / 10 < 256), byte_low, byte_high]

theorem carryByte_decimal {c : ℕ} (n : ℕ) (hc : c < 256) :
    (carryByte (decimal n) c).1 ++ Nat.digits 10 (carryByte (decimal n) c).2 =
      decimal (256 * n + c) := by
  have hvalue : (n % 10 * 256 + c) % 2 ^ 32 = n % 10 * 256 + c := Nat.mod_eq_of_lt (by omega)
  simp only [decimal, carryByte, hvalue, List.cons_append]
  rw [carryByte_digits (n / 10) (by omega : (n % 10 * 256 + c) / 10 < 256), byte_low, byte_high]

theorem pushCarry_eq {digits : List ℕ} {carry : ℕ}
    (h : (digits ++ Nat.digits 10 carry).length ≤ 78) :
    pushCarry digits carry = some (digits ++ Nat.digits 10 carry) := by
  fun_induction pushCarry digits carry with
  | case1 => simp
  | case2 digits carry hcarry hroom ih =>
    rw [Nat.digits_def' (by norm_num) (by omega : 0 < carry)] at h ⊢
    rw [ih (by simpa using h), List.append_assoc, List.singleton_append]
  | case3 digits carry hcarry hfull =>
    rw [Nat.digits_def' (by norm_num) (by omega : 0 < carry), List.length_append,
      List.length_cons] at h
    omega

theorem length_decimal_le {n : ℕ} (h : n < 2 ^ 256) : (decimal n).length ≤ 78 := by
  have hrest : (Nat.digits 10 (n / 10)).length ≤ 77 :=
    (Nat.digits_length_le_iff (by norm_num) (n / 10)).mpr (by omega)
  rw [decimal, List.length_cons]
  omega

theorem digits_of_bytes {scaled : Bytes} (h : scaled.length ≤ 32) :
    scaled.reverse.foldlM (fun digits byte =>
      pushCarry (carryByte digits byte.toNat).1 (carryByte digits byte.toNat).2) [0] =
        some (decimal (ofLeBytes scaled)) := by
  induction scaled with
  | nil => rfl
  | cons byte scaled ih =>
    rw [List.length_cons] at h
    have hbyte : byte.toNat < 256 := byte.toNat_lt
    have hlt : ofLeBytes (byte :: scaled) < 2 ^ 256 :=
      (ofLeBytes_lt (byte :: scaled)).trans_le
        ((Nat.pow_le_pow_right (by norm_num) h).trans (by norm_num))
    have hcarried := carryByte_decimal (ofLeBytes scaled) hbyte
    rw [List.reverse_cons, List.foldlM_append, ih (by omega), ofLeBytes, Nat.add_comm, ← hcarried]
    rw [ofLeBytes, Nat.add_comm] at hlt
    simp [pushCarry_eq (hcarried ▸ length_decimal_le hlt)]

theorem toDigits_eq_decimal (n : ℕ) :
    Nat.toDigits 10 n = (decimal n).reverse.map Nat.digitChar := by
  induction n using Nat.strong_induction_on with
  | _ n ih =>
    by_cases hn : n < 10
    · rw [Nat.toDigits_of_lt_base hn, decimal, Nat.mod_eq_of_lt hn, Nat.div_eq_of_lt hn]
      rfl
    · rw [Nat.toDigits_of_base_le (by norm_num) (by omega), ih (n / 10) (by omega),
        decimal_of_le (by omega : 10 ≤ n)]
      simp

/-- The buffer is never overrun, and what is left in it is the number's numeral. -/
theorem wide_numbers_render_as_their_numerals (scaled : Vector UInt8 32) :
    u256Decimal scaled = some (toString (ofLeBytes scaled.toList)) := by
  have hdigits := @digits_of_bytes scaled.toList (by simp)
  have hchars : ∀ digit ∈ decimal (ofLeBytes scaled.toList), digit < 10 := by
    intro digit hdigit
    rcases List.mem_cons.mp hdigit with rfl | hdigit
    · omega
    · exact Nat.digits_lt_base (by norm_num) hdigit
  have hkept : (decimal (ofLeBytes scaled.toList)).reverse.filterMap
      (fun digit => if digit < 10 then some digit.digitChar else none) =
        (decimal (ofLeBytes scaled.toList)).reverse.map Nat.digitChar := by
    rw [← List.filterMap_eq_map]
    refine List.filterMap_congr fun digit hdigit => ?_
    rw [if_pos (hchars digit (List.mem_reverse.mp hdigit))]
    rfl
  unfold u256Decimal
  rw [hdigits, Nat.toString_eq_ofList_toDigits, toDigits_eq_decimal, ← hkept]
  rfl

end HyperscaleVm.Effects

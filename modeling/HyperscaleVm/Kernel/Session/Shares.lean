import HyperscaleVm.Kernel.Session.Buckets

/-!
# A bucket's share over limbs (`session/buckets.rs`, `split_share`)

The proportion arrives as two 256-bit integers, and the session's own arithmetic over numbers is
what the limb arithmetic computes.
-/

namespace HyperscaleVm.Kernel
open Library

namespace Buckets

/-- The amount at `rep` is cut into what stays there and what goes to the fresh bucket `off`, of
its resource and origin and lent to the frame; every other bucket is as it was. -/
structure Divided (b : Buckets) (rep left share : ℕ) (resource : ResourceAddr) (d : Buckets)
    (off : ℕ) : Prop where
  fresh : off = b.slots.length
  kept : d.slots[rep]? = some (some (.amount left))
  taken : d.slots[off]? = some (some (.amount share))
  others : ∀ i, i ≠ rep → i ≠ off → d.slots[i]? = b.slots[i]?
  resources : d.resources = b.resources ++ [resource]
  origins : d.origins = b.origins ++ [b.originOf rep]
  reach : d.reach = b.reach.lend off

theorem lt_of_amount {b : Buckets} {rep held : ℕ} (h : b.amount rep = .ok held) :
    rep < b.slots.length := by
  by_contra hlen
  rw [amount, get, List.getElem?_eq_none (not_lt.mp hlen)] at h
  cases h

theorem divide_iff {b d : Buckets} {rep left share off : ℕ} {resource : ResourceAddr}
    (hrep : rep < b.slots.length) : b.divide rep left share resource = (d, off) ↔
      Divided b rep left share resource d off := by
  have hlen : (b.slots.set rep (some (.amount left))).length = b.slots.length := List.length_set
  constructor
  · rintro ⟨⟩
    refine ⟨hlen, ?_, List.getElem?_concat_length, fun i hi hoff => ?_, rfl, rfl, rfl⟩
    · show (List.set _ _ _ ++ _)[rep]? = _
      rw [List.getElem?_append_left (hlen ▸ hrep), List.getElem?_set_self hrep]
    · show (List.set _ _ _ ++ _)[i]? = _
      rcases lt_or_ge i b.slots.length with hlt | hge
      · rw [List.getElem?_append_left (hlen ▸ hlt), List.getElem?_set_ne hi.symm]
      · have hpast : b.slots.length < i := lt_of_le_of_ne hge (fun e => hoff (hlen.trans e).symm)
        rw [List.getElem?_eq_none hge, List.getElem?_eq_none]
        simpa [hlen] using hpast
  · intro h
    obtain ⟨slots, resources, origins, reach⟩ := d
    obtain ⟨rfl, hkept, htaken, hothers, rfl, rfl, rfl⟩ := h
    have hslots : (b.slots.set rep (some (.amount left))) ++ [some (.amount share)] = slots := by
      refine List.ext_getElem? fun i => ?_
      rcases eq_or_ne i rep with rfl | hi
      · rw [List.getElem?_append_left (hlen ▸ hrep), List.getElem?_set_self hrep, hkept]
      rcases eq_or_ne i b.slots.length with rfl | hoff
      · rw [htaken, ← hlen, List.getElem?_concat_length]
      · rw [hothers i hi hoff]
        rcases lt_or_gt_of_ne hoff with hlt | hgt
        · rw [List.getElem?_append_left (hlen ▸ hlt), List.getElem?_set_ne hi.symm]
        · rw [List.getElem?_eq_none hgt.le, List.getElem?_eq_none]
          simpa [hlen] using hgt
    rw [divide, opened]
    simp only [set, hslots, hlen, originOf]

def splitShareLimbs (b : Buckets) (rep : ℕ) (num den : U256) :
    Except SessionTrap (Buckets × ℕ) := do
  let held ← b.amount rep
  if den.isZero then .error (.math .divideByZero)
  else if num.cmp den = .gt then .error .shareAboveOne
  else
    let quotient ← (mulDiv (.fromU128 held) num den .down).mapError .math
    let share ← quotient.toU128.elim (.error (.math .overflow)) .ok
    let resource ← b.resourceOf rep
    if share ≤ held then .ok (b.divide rep (held - share) share resource)
    else .error (.bucketUnderflow share held)

variable {b : Buckets} {rep held : ℕ} {num den : U256}

theorem share_le (hle : num.value ≤ den.value) : held * num.value / den.value ≤ held :=
  Nat.div_le_of_le_mul (by rw [mul_comm]; exact Nat.mul_le_mul_right held hle)

theorem splitShareLimbs_eq (hheld : b.amount rep = .ok held) (hbound : held < AMOUNT_BOUND) :
    b.splitShareLimbs rep num den = b.splitShare rep num.value den.value := by
  rw [splitShareLimbs, splitShare, hheld]
  show (if _ then _ else _) = (if _ then _ else _)
  by_cases hden : den.value = 0
  · rw [if_pos (den.isZero_iff.mpr hden), if_pos hden]
  by_cases hnum : num.value > den.value
  · rw [if_neg (mt den.isZero_iff.mp hden), if_neg hden, Wide.cmp_eq,
      if_pos (compare_gt_iff_gt.mpr hnum), if_pos hnum]
  have hshare : held * num.value / den.value < AMOUNT_BOUND :=
    (share_le (not_lt.mp hnum)).trans_lt hbound
  have hquotient : mulDiv (.fromU128 held) num den .down =
      .ok (.fromU128 (held * num.value / den.value)) := by
    rw [mulDiv_ok_iff hden, U256.value_fromU128 hbound, U256.value_fromU128 hshare,
      Rounding.apply, ← Nat.cast_mul, Nat.floor_div_eq_div]
  have hnarrow := U256.toU128_eq ((U256.value_fromU128 hshare).trans_lt hshare)
  rw [U256.value_fromU128 hshare] at hnarrow
  rw [if_neg (mt den.isZero_iff.mp hden), if_neg hden, Wide.cmp_eq,
    if_neg (mt compare_gt_iff_gt.mp hnum), if_neg hnum, hquotient]
  dsimp only
  rw [if_neg (not_le.mpr hshare)]
  simp only [Except.mapError, bind, Except.bind, hnarrow, Option.elim]

theorem splitShareLimbs_ok (hheld : b.amount rep = .ok held) (hbound : held < AMOUNT_BOUND)
    (d : Buckets) (off : ℕ) : b.splitShareLimbs rep num den = .ok (d, off) ↔
      den.value ≠ 0 ∧ num.value ≤ den.value ∧ ∃ resource, b.resourceOf rep = .ok resource ∧
        Divided b rep (held - ⌊(held * num.value / den.value : ℚ)⌋₊)
          ⌊(held * num.value / den.value : ℚ)⌋₊ resource d off := by
  rw [splitShareLimbs_eq hheld hbound, splitShare, hheld, ← Nat.cast_mul, Nat.floor_div_eq_div]
  show (if _ then _ else _) = _ ↔ _
  by_cases hden : den.value = 0
  · rw [if_pos hden]
    exact ⟨nofun, fun h => absurd hden h.1⟩
  by_cases hnum : num.value > den.value
  · rw [if_neg hden, if_pos hnum]
    exact ⟨nofun, fun h => absurd h.2.1 (not_le.mpr hnum)⟩
  have hle : held * num.value / den.value ≤ held := share_le (not_lt.mp hnum)
  rw [if_neg hden, if_neg hnum]
  show (if _ then _ else _) = _ ↔ _
  rw [if_neg (not_le.mpr (hle.trans_lt hbound)), bind_ok]
  simp only [if_pos hle, Except.ok.injEq, ne_eq, hden, not_false_iff, not_lt.mp hnum, true_and,
    divide_iff (lt_of_amount hheld)]

end Buckets

/-- `mul_div` refuses a zero divisor and nothing but a quotient past the width, and answers the
exact ratio rounded; a bucket's share is that floor in a fresh bucket, the rest of it stays, and no
other bucket changes. -/
theorem wide_ratios_are_exact :
    (∀ (a b c : U256) (rounding : Rounding),
      (mulDiv a b c rounding = .error .divideByZero ↔ c.value = 0) ∧ (c.value ≠ 0 →
        (∀ z, mulDiv a b c rounding = .ok z ↔
          z.value = rounding.apply (a.value * b.value / c.value)) ∧
        (mulDiv a b c rounding = .error .overflow ↔
          2 ^ 256 ≤ rounding.apply (a.value * b.value / c.value)))) ∧
    ∀ (b : Buckets) (rep held : ℕ) (num den : U256), b.amount rep = .ok held →
      held < AMOUNT_BOUND → ∀ d off, b.splitShareLimbs rep num den = .ok (d, off) ↔
        den.value ≠ 0 ∧ num.value ≤ den.value ∧ ∃ resource, b.resourceOf rep = .ok resource ∧
          b.Divided rep (held - ⌊(held * num.value / den.value : ℚ)⌋₊)
            ⌊(held * num.value / den.value : ℚ)⌋₊ resource d off := by
  refine ⟨fun a b c rounding => ⟨?_, fun hc => ⟨fun z => mulDiv_ok_iff hc, mulDiv_overflow_iff hc⟩⟩,
    fun b rep held num den => Buckets.splitShareLimbs_ok⟩
  constructor
  · intro h
    by_contra hc
    rcases mulDiv_cases hc rounding with ⟨z, hz, -⟩ | ⟨hz, -⟩ <;> rw [hz] at h <;> cases h
  · intro hc
    rw [mulDiv, if_pos (c.isZero_iff.mpr hc)]

end HyperscaleVm.Kernel

import HyperscaleVm.Types.Math
import Mathlib.Algebra.Order.BigOperators.Group.List

/-!
# Prices of declared work (`types/src/work.rs`)
-/

namespace HyperscaleVm
open List

inductive Dimension where
  | compute
  | readBytes
  | writeBytes
  | footprint
  | retention
  deriving DecidableEq

def Dimension.all : List Dimension := [.compute, .readBytes, .writeBytes, .footprint, .retention]

structure Rows where
  row : Dimension → ℕ
  narrow : ∀ d, row d < 2 ^ 64

abbrev PriceTable := Rows

abbrev DeclaredWork := Rows

def BASIS_POINTS : ℕ := 10000

def PRICE_RESOLUTION : ℕ := 1000

def WORK_PER_QUANTUM : ℕ := 100000 * PRICE_RESOLUTION

def MAX_PRIORITY_BP : ℕ := 100000

namespace PriceTable

def GENESIS : Dimension → ℕ
  | .compute => PRICE_RESOLUTION
  | .readBytes => 10 * PRICE_RESOLUTION
  | .writeBytes => 50 * PRICE_RESOLUTION
  | .footprint => 1000 * PRICE_RESOLUTION
  | .retention => 20 * PRICE_RESOLUTION

def weightedSum (table : PriceTable) (work : DeclaredWork) : ℕ :=
  (Dimension.all.map fun d => table.row d * work.row d).sum

/-- The sum of a 128-bit counter, which wraps. -/
def weighted (table : PriceTable) (work : DeclaredWork) : ℕ := table.weightedSum work % 2 ^ 128

def price (table : PriceTable) (work : DeclaredWork) (priorityBp : ℕ) : ℕ :=
  min (table.weighted work * (BASIS_POINTS + priorityBp)) (2 ^ 128 - 1) ⌈/⌉
    (WORK_PER_QUANTUM * BASIS_POINTS)

end PriceTable

structure PriceBounds where
  floor : PriceTable
  ceiling : PriceTable

/-- The genesis table at so many basis points of itself, which saturates. -/
def scaled (bp : ℕ) : PriceTable where
  row d := min (PriceTable.GENESIS d * bp / BASIS_POINTS) (2 ^ 64 - 1)
  narrow d := by omega

namespace PriceBounds

def band (floorBp ceilingBp : ℕ) : PriceBounds := ⟨scaled floorBp, scaled ceilingBp⟩

def wellFormed (bounds : PriceBounds) : Bool :=
  Dimension.all.all fun d => 0 < bounds.floor.row d && bounds.floor.row d ≤ bounds.ceiling.row d

def clampRow (level floor ceiling : ℕ) : ℕ :=
  if level < floor then floor else if ceiling < level then ceiling else level

def inside (bounds : PriceBounds) (row : Dimension → ℕ) : PriceTable where
  row d := clampRow (row d) (bounds.floor.row d) (bounds.ceiling.row d)
  narrow d := by
    have hfloor := bounds.floor.narrow d
    have hceiling := bounds.ceiling.narrow d
    unfold clampRow
    split
    · exact hfloor
    · split <;> omega

def Holds (bounds : PriceBounds) (table : PriceTable) : Prop :=
  ∀ d, bounds.floor.row d ≤ table.row d ∧ table.row d ≤ bounds.ceiling.row d

end PriceBounds

structure Utilization where
  used : ℕ
  capacity : ℕ

def saturating (n : ℕ) : ℕ := min n (2 ^ 128 - 1)

def steppedRow (prev : ℕ) (u : Utilization) : ℕ :=
  if u.capacity = 0 then prev
  else
    let used := if u.capacity < u.used then u.capacity else u.used
    let numerator :=
      saturating (prev * saturating (saturating (u.capacity * 7) + saturating (used * 2)))
    let denominator := saturating (u.capacity * 8)
    let next := if u.capacity ≤ saturating (used * 2) then numerator ⌈/⌉ denominator
      else numerator / denominator
    min next (2 ^ 64 - 1)

def PriceTable.stepped (table : PriceTable) (utilization : Dimension → Utilization)
    (bounds : PriceBounds) : PriceTable :=
  bounds.inside fun d => steppedRow (table.row d) (utilization d)

def PriceTable.after (table : PriceTable) (bounds : PriceBounds)
    (readings : ℕ → Dimension → Utilization) : ℕ → PriceTable
  | 0 => table
  | n + 1 => (table.after bounds readings n).stepped (readings n) bounds

section Prices

variable {table : PriceTable} {floorBp ceilingBp p : ℕ}

theorem row_le_of_band (hbp : ceilingBp < 2 ^ 32)
    (h : (PriceBounds.band floorBp ceilingBp).Holds table) (d : Dimension) :
    table.row d ≤ PriceTable.GENESIS d * 2 ^ 32 / BASIS_POINTS := by
  refine ((h d).2.trans (Nat.min_le_left _ _)).trans (Nat.div_le_div_right ?_)
  exact Nat.mul_le_mul_left _ hbp.le

variable (hrow : ∀ d, table.row d ≤ PriceTable.GENESIS d * 2 ^ 32 / BASIS_POINTS)
  (hp : p ≤ MAX_PRIORITY_BP) (work : DeclaredWork)

include hrow

theorem weightedSum_le : table.weightedSum work ≤ 2 ^ 103 := by
  have hterm : ∀ d, table.row d * work.row d ≤
      PriceTable.GENESIS d * 2 ^ 32 / BASIS_POINTS * 2 ^ 64 := fun d =>
    Nat.mul_le_mul (hrow d) (work.narrow d).le
  have h₁ := hterm .compute
  have h₂ := hterm .readBytes
  have h₃ := hterm .writeBytes
  have h₄ := hterm .footprint
  have h₅ := hterm .retention
  norm_num [PriceTable.GENESIS, PRICE_RESOLUTION, BASIS_POINTS] at h₁ h₂ h₃ h₄ h₅
  simp only [PriceTable.weightedSum, Dimension.all, map_cons, map_nil, sum_cons, sum_nil]
  omega

include hp

theorem raised_lt : table.weightedSum work * (BASIS_POINTS + p) < 2 ^ 128 :=
  calc _ ≤ 2 ^ 103 * (BASIS_POINTS + MAX_PRIORITY_BP) :=
        Nat.mul_le_mul (weightedSum_le hrow work) (by omega)
    _ < 2 ^ 128 := by norm_num [BASIS_POINTS, MAX_PRIORITY_BP]

theorem price_eq : table.price work p =
    table.weightedSum work * (BASIS_POINTS + p) ⌈/⌉ (WORK_PER_QUANTUM * BASIS_POINTS) := by
  have hsum := weightedSum_le hrow work
  have hraised := raised_lt hrow hp work
  rw [PriceTable.price, PriceTable.weighted, Nat.mod_eq_of_lt (by omega), min_eq_left (by omega)]

end Prices

/-- Inside any band, fees are exact, never free of work, and rise with everything they weigh. -/
theorem fees_are_exact_and_never_free {floorBp ceilingBp p : ℕ} (hbp : ceilingBp < 2 ^ 32)
    {table : PriceTable} (hfloor : ∀ d, 0 < (PriceBounds.band floorBp ceilingBp).floor.row d)
    (hinside : (PriceBounds.band floorBp ceilingBp).Holds table) (work : DeclaredWork)
    (hp : p ≤ MAX_PRIORITY_BP) :
    table.weightedSum work * (BASIS_POINTS + p) < 2 ^ 128 ∧
    table.price work p = ⌈((table.weightedSum work * (BASIS_POINTS + p) : ℕ) /
      (WORK_PER_QUANTUM * BASIS_POINTS : ℕ) : ℚ)⌉₊ ∧
    ((∃ d, work.row d ≠ 0) → 1 ≤ table.price work p) ∧
    ∀ (table' : PriceTable) (work' : DeclaredWork) (p' : ℕ),
      (PriceBounds.band floorBp ceilingBp).Holds table' → p' ≤ MAX_PRIORITY_BP →
      (∀ d, table.row d ≤ table'.row d) → (∀ d, work.row d ≤ work'.row d) → p ≤ p' →
      table.price work p ≤ table'.price work' p' := by
  have hprice := price_eq (row_le_of_band hbp hinside) hp work
  have hunit : 0 < WORK_PER_QUANTUM * BASIS_POINTS := by decide
  refine ⟨raised_lt (row_le_of_band hbp hinside) hp work,
    hprice.trans (natCeil_div hunit).symm, ?_, ?_⟩
  · rintro ⟨d, hd⟩
    have hmem : d ∈ Dimension.all := by cases d <;> decide
    have hterm : 0 < table.row d * work.row d :=
      Nat.mul_pos ((hfloor d).trans_le (hinside d).1) (Nat.pos_of_ne_zero hd)
    have hpos : 0 < table.weightedSum work :=
      hterm.trans_le (single_le_sum (fun _ _ => Nat.zero_le _) _ (mem_map.mpr ⟨d, hmem, rfl⟩))
    rw [hprice]
    refine Nat.pos_of_ne_zero fun hzero => ?_
    have hnone := (ceilDiv_le_iff_le_mul hunit).mp hzero.le
    have hsome := Nat.mul_pos hpos (by unfold BASIS_POINTS; omega : 0 < BASIS_POINTS + p)
    omega
  · intro table' work' p' hinside' hp' htable hwork hle
    rw [hprice, price_eq (row_le_of_band hbp hinside') hp']
    refine (gc_mul_ceilDiv hunit).monotone_l (Nat.mul_le_mul ?_ (by omega))
    exact sum_le_sum fun d _ => Nat.mul_le_mul (htable d) (hwork d)

def unitWork : DeclaredWork := ⟨fun _ => 1, fun _ => by norm_num⟩

theorem genesis_fee_is_exact :
    (PriceBounds.band BASIS_POINTS BASIS_POINTS).Holds (scaled BASIS_POINTS) ∧
      1 ≤ (scaled BASIS_POINTS).price unitWork 0 := by
  have hheld : (PriceBounds.band BASIS_POINTS BASIS_POINTS).Holds (scaled BASIS_POINTS) :=
    fun _ => ⟨le_rfl, le_rfl⟩
  have hfees := fees_are_exact_and_never_free (by decide) (fun d => by cases d <;> decide) hheld
    unitWork (Nat.zero_le MAX_PRIORITY_BP)
  exact ⟨hheld, hfees.2.2.1 ⟨.compute, one_ne_zero⟩⟩

structure FollowsDemand (bounds : PriceBounds) (d : Dimension) (u : Utilization)
    (prev next : ℕ) : Prop where
  raised : u.capacity < u.used * 2 → prev < bounds.ceiling.row d → prev < next
  lowered : u.used * 2 < u.capacity → bounds.floor.row d < prev → next < prev
  kept : u.used * 2 = u.capacity → next = prev
  near : next ≤ prev + prev ⌈/⌉ 8 ∧ prev ≤ next + prev ⌈/⌉ 8

section Steps
open Utilization PriceBounds

variable {u u' : Utilization} {prev prev' : ℕ}

/-- Eight capacities where half was used, one more or less at the ends. -/
def Utilization.factor (u : Utilization) : ℕ := u.capacity * 7 + min u.used u.capacity * 2

/-- The reading's products stay within 128 bits. -/
structure Utilization.Fits (u : Utilization) (prev : ℕ) : Prop where
  positive : 0 < u.capacity
  denominator : u.capacity * 8 < 2 ^ 128
  numerator : prev * u.factor < 2 ^ 128

def nextRow (prev : ℕ) (u : Utilization) : ℕ :=
  if u.capacity ≤ min u.used u.capacity * 2 then prev * u.factor ⌈/⌉ (u.capacity * 8)
  else prev * u.factor / (u.capacity * 8)

theorem steppedRow_eq (h : u.Fits prev) (hprev : 0 < prev) :
    steppedRow prev u = min (nextRow prev u) (2 ^ 64 - 1) := by
  have hused : (if u.capacity < u.used then u.capacity else u.used) = min u.used u.capacity := by
    split <;> omega
  have hsum := (Nat.le_mul_of_pos_left _ hprev).trans_lt h.numerator
  have hdenominator := h.denominator
  have hnumerator := h.numerator
  unfold factor at hsum hnumerator
  simp only [steppedRow, if_neg h.positive.ne', hused, saturating, nextRow, factor]
  rw [min_eq_left (by omega : u.capacity * 7 ≤ _), min_eq_left (by omega : _ * 2 ≤ 2 ^ 128 - 1),
    min_eq_left (Nat.le_sub_one_of_lt hsum), min_eq_left (Nat.le_sub_one_of_lt hnumerator),
    min_eq_left (Nat.le_sub_one_of_lt hdenominator)]

theorem lt_nextRow (hprev : 0 < prev) (hcapacity : 0 < u.capacity) (h : u.capacity < u.used * 2) :
    prev < nextRow prev u := by
  have hfactor : u.capacity * 8 < u.factor := by unfold factor; omega
  rw [nextRow, if_pos (by omega), ← not_le, ceilDiv_le_iff_le_mul (by omega), not_le,
    mul_comm _ prev]
  exact Nat.mul_lt_mul_of_pos_left hfactor hprev

theorem nextRow_lt (hprev : 0 < prev) (h : u.used * 2 < u.capacity) : nextRow prev u < prev := by
  have hfactor : u.factor < u.capacity * 8 := by unfold factor; omega
  rw [nextRow, if_neg (by omega), Nat.div_lt_iff_lt_mul (by omega)]
  exact Nat.mul_lt_mul_of_pos_left hfactor hprev

theorem nextRow_of_half (hcapacity : 0 < u.capacity) (h : u.used * 2 = u.capacity) :
    nextRow prev u = prev := by
  have hd : 0 < u.capacity * 8 := by omega
  have hfactor : u.factor = u.capacity * 8 := by unfold factor; omega
  rw [nextRow, if_pos (by omega), hfactor]
  refine eq_of_forall_ge_iff fun c => ?_
  rw [ceilDiv_le_iff_le_mul hd, mul_comm prev, Nat.mul_le_mul_left_iff hd]

theorem div_le_ceilDiv {m d : ℕ} (hd : 0 < d) : m / d ≤ m ⌈/⌉ d := by
  rw [Nat.ceilDiv_eq_add_pred_div]
  exact Nat.div_le_div_right (by omega)

theorem nextRow_near (hcapacity : 0 < u.capacity) :
    nextRow prev u ≤ prev + prev ⌈/⌉ 8 ∧ prev ≤ nextRow prev u + prev ⌈/⌉ 8 := by
  have hd : 0 < u.capacity * 8 := by omega
  have heighth : prev ≤ 8 * (prev ⌈/⌉ 8) := (ceilDiv_le_iff_le_mul (by norm_num)).mp le_rfl
  have hfactor : u.capacity * 7 ≤ u.factor ∧ u.factor ≤ u.capacity * 9 := by
    unfold factor
    omega
  have hupper : prev * u.factor ≤ u.capacity * 8 * (prev + prev ⌈/⌉ 8) := by
    have huse := Nat.mul_le_mul_left prev hfactor.2
    nlinarith
  have hfloor : prev ≤ prev * u.factor / (u.capacity * 8) + prev ⌈/⌉ 8 := by
    rw [← Nat.sub_le_iff_le_add, Nat.le_div_iff_mul_le hd]
    calc (prev - prev ⌈/⌉ 8) * (u.capacity * 8)
      _ = 8 * (prev - prev ⌈/⌉ 8) * u.capacity := by ring
      _ ≤ 7 * prev * u.capacity := Nat.mul_le_mul_right _ (by omega)
      _ = prev * (u.capacity * 7) := by ring
      _ ≤ _ := Nat.mul_le_mul_left _ hfactor.1
  unfold nextRow
  split
  · exact ⟨(ceilDiv_le_iff_le_mul hd).mpr hupper,
      hfloor.trans (Nat.add_le_add_right (div_le_ceilDiv hd) _)⟩
  · exact ⟨Nat.div_le_of_le_mul hupper, hfloor⟩

theorem nextRow_mono (hcapacity : 0 < u.capacity) (hsame : u.capacity = u'.capacity)
    (hused : u.used ≤ u'.used) (hprev : prev ≤ prev') : nextRow prev u ≤ nextRow prev' u' := by
  have hle : prev * u.factor ≤ prev' * u'.factor :=
    Nat.mul_le_mul hprev (by unfold factor; omega)
  have hd : 0 < u.capacity * 8 := by omega
  unfold nextRow
  rw [← hsame]
  split
  · rw [if_pos (by omega)]
    exact (gc_mul_ceilDiv hd).monotone_l hle
  · split
    · exact (Nat.div_le_div_right hle).trans (div_le_ceilDiv hd)
    · exact Nat.div_le_div_right hle

variable {bounds : PriceBounds} {table : PriceTable} {d : Dimension}

theorem wellFormed_iff : bounds.wellFormed = true ↔
    ∀ d, 0 < bounds.floor.row d ∧ bounds.floor.row d ≤ bounds.ceiling.row d := by
  simp only [wellFormed, all_eq_true, Bool.and_eq_true, decide_eq_true_eq]
  exact ⟨fun h d => h d (by cases d <;> decide), fun h d _ => h d⟩

theorem clampRow_eq {level floor ceiling : ℕ} (h : floor ≤ ceiling) :
    clampRow level floor ceiling = min (max level floor) ceiling := by
  unfold clampRow
  split
  · omega
  · split <;> omega

variable (hformed : bounds.wellFormed = true)

include hformed

theorem stepped_row (hinside : bounds.Holds table) {utilization : Dimension → Utilization}
    (hfits : (utilization d).Fits (table.row d)) : (table.stepped utilization bounds).row d =
      min (max (nextRow (table.row d) (utilization d)) (bounds.floor.row d))
        (bounds.ceiling.row d) := by
  obtain ⟨hpositive, hband⟩ := wellFormed_iff.mp hformed d
  have hceiling := bounds.ceiling.narrow d
  simp only [PriceTable.stepped, inside, clampRow_eq hband,
    steppedRow_eq hfits (hpositive.trans_le (hinside d).1)]
  omega

section Moves

variable (hinside : bounds.Holds table) {utilization : Dimension → Utilization}
  (hfits : (utilization d).Fits (table.row d))

include hinside hfits

theorem stepped_climbs (h : (utilization d).capacity < (utilization d).used * 2) :
    min (table.row d + 1) (bounds.ceiling.row d) ≤ (table.stepped utilization bounds).row d := by
  have hpositive := (wellFormed_iff.mp hformed d).1.trans_le (hinside d).1
  have hmore := lt_nextRow hpositive hfits.positive h
  rw [stepped_row hformed hinside hfits]
  omega

theorem stepped_falls (h : (utilization d).used * 2 < (utilization d).capacity) :
    (table.stepped utilization bounds).row d ≤ max (table.row d - 1) (bounds.floor.row d) := by
  have hpositive := (wellFormed_iff.mp hformed d).1.trans_le (hinside d).1
  have hless := nextRow_lt hpositive h
  rw [stepped_row hformed hinside hfits]
  omega

theorem stepped_follows : FollowsDemand bounds d (utilization d) (table.row d)
    ((table.stepped utilization bounds).row d) := by
  obtain ⟨hlow, hhigh⟩ := hinside d
  have hpositive := (wellFormed_iff.mp hformed d).1
  constructor
  · intro h _
    have hclimbs := stepped_climbs hformed hinside hfits h
    omega
  · intro h _
    have hfalls := stepped_falls hformed hinside hfits h
    omega
  · intro h
    rw [stepped_row hformed hinside hfits, nextRow_of_half hfits.positive h]
    omega
  · obtain ⟨hup, hdown⟩ : nextRow (table.row d) (utilization d) ≤ _ ∧ _ :=
      nextRow_near hfits.positive
    rw [stepped_row hformed hinside hfits]
    omega

end Moves

theorem after_holds (hinside : bounds.Holds table)
    (readings : ℕ → Dimension → Utilization) (n : ℕ) :
    bounds.Holds (table.after bounds readings n) := by
  cases n with
  | zero => exact hinside
  | succ n =>
    intro d
    have hband := (wellFormed_iff.mp hformed d).2
    simp only [PriceTable.after, PriceTable.stepped, inside, clampRow_eq hband]
    omega

end Steps

/-- Rows follow the use of their dimension inside the bounds, and reach the bound a use that stays
to one side of half the capacity drives them to. -/
theorem prices_follow_demand {bounds : PriceBounds} {table : PriceTable}
    {readings : ℕ → Dimension → Utilization} (hformed : bounds.wellFormed = true)
    (hinside : bounds.Holds table)
    (hfits : ∀ n d, (readings n d).Fits ((table.after bounds readings n).row d)) :
    (∀ n, bounds.Holds (table.after bounds readings n)) ∧
    (∀ n d, FollowsDemand bounds d (readings n d) ((table.after bounds readings n).row d)
      ((table.after bounds readings (n + 1)).row d)) ∧
    (∀ (prev prev' : PriceTable) (u u' : Dimension → Utilization) (d : Dimension),
      bounds.Holds prev → bounds.Holds prev' → (u d).Fits (prev.row d) →
      (u' d).Fits (prev'.row d) → (u d).capacity = (u' d).capacity → (u d).used ≤ (u' d).used →
      prev.row d ≤ prev'.row d → (prev.stepped u bounds).row d ≤ (prev'.stepped u' bounds).row d) ∧
    ∀ d, ((∀ n, (readings n d).capacity < (readings n d).used * 2) →
        ∃ reached, ∀ n ≥ reached, (table.after bounds readings n).row d = bounds.ceiling.row d) ∧
      ((∀ n, (readings n d).used * 2 < (readings n d).capacity) →
        ∃ reached, ∀ n ≥ reached, (table.after bounds readings n).row d = bounds.floor.row d) := by
  have hholds := after_holds hformed hinside readings
  have hfollows : ∀ n d, FollowsDemand bounds d (readings n d)
      ((table.after bounds readings n).row d) ((table.after bounds readings (n + 1)).row d) :=
    fun n d => stepped_follows hformed (hholds n) (hfits n d)
  refine ⟨hholds, hfollows, ?_, fun d => ⟨fun hmore => ⟨bounds.ceiling.row d, fun n hn => ?_⟩,
    fun hless => ⟨table.row d, fun n hn => ?_⟩⟩⟩
  · intro prev prev' u u' d hprev hprev' hu hu' hsame hused hle
    rw [stepped_row hformed hprev hu, stepped_row hformed hprev' hu']
    have := nextRow_mono hu.positive hsame hused hle
    omega
  · -- below the ceiling every epoch raises the row by one at least
    have hclimbs : ∀ n, min n (bounds.ceiling.row d) ≤ (table.after bounds readings n).row d := by
      intro n
      induction n with
      | zero => omega
      | succ n ih =>
        have hnext : _ ≤ (table.after bounds readings (n + 1)).row d :=
          stepped_climbs hformed (hholds n) (hfits n d) (hmore n)
        omega
    have hreached := hclimbs n
    have hhigh := (hholds n d).2
    omega
  · have hfalls : ∀ n, (table.after bounds readings n).row d ≤
        max (table.row d - n) (bounds.floor.row d) := by
      intro n
      induction n with
      | zero => exact le_max_left _ _
      | succ n ih =>
        have hnext : (table.after bounds readings (n + 1)).row d ≤ _ :=
          stepped_falls hformed (hholds n) (hfits n d) (hless n)
        omega
    have hreached := hfalls n
    have hlow := (hholds n d).1
    omega

def doubling : PriceBounds := .band BASIS_POINTS (2 * BASIS_POINTS)

def fullEpochs (_ : ℕ) (_ : Dimension) : Utilization := ⟨2, 2⟩

theorem full_epochs_reach_the_ceiling : ∃ reached, ∀ n ≥ reached,
    ((scaled BASIS_POINTS).after doubling fullEpochs n).row .compute = 2 * PRICE_RESOLUTION := by
  have hformed : doubling.wellFormed = true := by decide
  have hfits :
      ∀ n d, (fullEpochs n d).Fits (((scaled BASIS_POINTS).after doubling fullEpochs n).row d) := by
    intro n d
    have hnarrow := ((scaled BASIS_POINTS).after doubling fullEpochs n).narrow d
    refine ⟨Nat.two_pos, by norm_num [fullEpochs], ?_⟩
    change _ * 18 < 2 ^ 128
    omega
  have hprices := prices_follow_demand hformed
    (fun d => ⟨le_rfl, (wellFormed_iff.mp hformed d).2⟩) hfits
  exact (hprices.2.2.2 .compute).1 fun _ => by norm_num [fullEpochs]

end HyperscaleVm

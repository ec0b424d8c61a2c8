import HyperscaleVm.Types.Effect

/-!
# What a declared write is priced from (`types/src/effect.rs`)
-/

namespace HyperscaleVm
open List

/-- A sum of the dimension's counter, which saturates (`u64`). -/
def saturated (n : ℕ) : ℕ := min n (2 ^ 64 - 1)

def EffectTarget.leavesWritten : EffectTarget → ℕ
  | .point _ | .entry _ _ _ => 1
  | .range _ _ _ _ cap => cap

def ENTRY_LEAF_BYTES : ℕ := 35

def EffectTarget.leafBytes (target : EffectTarget) (width : ℕ) : ℕ :=
  match target with
  | .point _ => width
  | .entry _ _ _ | .range _ _ _ _ _ => ENTRY_LEAF_BYTES + width

def WRITE_LEAF_BYTES : ℕ := 2048

def writtenLeaf (leaf : ℕ) : ℕ := WRITE_LEAF_BYTES + leaf

/-- `write_bytes` of one effect. -/
def Mode.writeBytes (target : EffectTarget) (width : ℕ) : Mode → ℕ
  | .read => 0
  | .delta _ | .reserve _ | .write _ =>
    saturated (target.leavesWritten * writtenLeaf (target.leafBytes width))

/-- `retained_bytes` of one effect. -/
def Mode.retainedBytes (target : EffectTarget) (width : ℕ) : Mode → ℕ
  | .read => 0
  | .delta _ | .reserve _ | .write _ => saturated (target.leavesWritten * target.leafBytes width)

namespace EffectSet

def widest (price : Mode → ℕ) (declared : Declared) : ℕ :=
  (declared.modes.toList.map price).foldl max 0

def writeBytesOf (s : EffectSet) (target : EffectTarget) : ℕ :=
  match s.byTarget[target]? with
  | some declared => widest (Mode.writeBytes target declared.width) declared
  | none => 0

def retainedBytesOf (s : EffectSet) (target : EffectTarget) : ℕ :=
  match s.byTarget[target]? with
  | some declared => widest (Mode.retainedBytes target declared.width) declared
  | none => 0

def writeBytes (s : EffectSet) : ℕ :=
  s.byTarget.keys.foldl (fun total target => saturated (total + s.writeBytesOf target)) 0

def retainedBytes (s : EffectSet) : ℕ :=
  s.byTarget.keys.foldl (fun total target => saturated (total + s.retainedBytesOf target)) 0

def writes (s : EffectSet) (target : EffectTarget) : Bool :=
  match s.byTarget[target]? with
  | some declared => declared.modes.toList.any (· ≠ .read)
  | none => false

def writtenTargets (s : EffectSet) : List EffectTarget := s.byTarget.keys.filter s.writes

def weighed (s : EffectSet) (weight : EffectTarget → ℕ) : ℕ :=
  (s.writtenTargets.map fun target => target.leavesWritten * weight target).sum

def entriesPriced (s : EffectSet) : ℕ :=
  s.weighed fun
    | .point _ => 0
    | .entry _ _ _ | .range _ _ _ _ _ => 1

def bytesPriced (s : EffectSet) : ℕ := s.weighed s.widthOf

theorem widest_of_uniform {price : Mode → ℕ} (declared : Declared) {n : ℕ} (hread : price .read = 0)
    (hwrite : ∀ mode : Mode, mode ≠ .read → price mode = n) :
    widest price declared = if declared.modes.toList.any (· ≠ .read) then n else 0 := by
  have hgrow : ∀ (modes : List Mode) (m : ℕ), (m = 0 ∨ m = n) → (modes.map price).foldl max m =
        if m = n ∨ modes.any (· ≠ .read) = true then n else 0 := by
    intro modes
    induction modes with
    | nil =>
      intro m hm
      rcases hm with rfl | rfl
      · by_cases h : (0 : ℕ) = n
        · simp [← h]
        · simp [h]
      · simp
    | cons mode modes ih =>
      intro m hm
      rw [map_cons, foldl_cons]
      by_cases hmode : mode = .read
      · subst hmode
        rw [hread, Nat.max_zero, ih m hm]
        simp
      · rw [hwrite mode hmode]
        have hmax : max m n = n := by
          rcases hm with rfl | rfl <;> simp
        rw [hmax, ih n (.inr rfl)]
        simp [hmode]
  have h := hgrow declared.modes.toList 0 (.inl rfl)
  unfold widest
  rw [h]
  by_cases hn : (0 : ℕ) = n
  · subst hn
    simp
  · simp only [hn, false_or]

theorem foldl_saturated (price : EffectTarget → ℕ) : ∀ (targets : List EffectTarget) (n : ℕ),
    targets.foldl (fun total target => saturated (total + saturated (price target))) (saturated n) =
      saturated (n + (targets.map price).sum)
  | [], n => by simp
  | target :: targets, n => by
    have hstep : saturated (saturated n + saturated (price target)) =
        saturated (n + price target) := by
      unfold saturated
      omega
    rw [foldl_cons, hstep, foldl_saturated price targets, map_cons, sum_cons,
      Nat.add_assoc]

theorem sum_filter_eq (price : EffectTarget → ℕ) (writes : EffectTarget → Bool) :
    ∀ targets : List EffectTarget,
      (targets.map fun target => if writes target then price target else 0).sum =
        ((targets.filter writes).map price).sum
  | [] => rfl
  | target :: targets => by
    rw [map_cons, sum_cons, sum_filter_eq price writes targets, filter_cons]
    by_cases h : writes target = true
    · rw [if_pos h, if_pos h, map_cons, sum_cons]
    · rw [if_neg h, if_neg h, Nat.zero_add]

variable (s : EffectSet)

theorem total_of_uniform (figure : EffectTarget → ℕ → ℕ)
    (price : EffectTarget → ℕ → Mode → ℕ) (of : EffectTarget → ℕ)
    (hof : ∀ target, of target = match s.byTarget[target]? with
      | some declared => widest (price target declared.width) declared | none => 0)
    (hread : ∀ target width, price target width .read = 0)
    (hwrite : ∀ target width (mode : Mode), mode ≠ .read →
      price target width mode = saturated (target.leavesWritten * figure target width)) :
    s.byTarget.keys.foldl (fun total target => saturated (total + of target)) 0 =
      saturated (s.weighed fun target => figure target (s.widthOf target)) := by
  have hprice : ∀ target, of target = saturated (if s.writes target then
      target.leavesWritten * figure target (s.widthOf target) else 0) := by
    intro target
    rw [hof target]
    unfold writes widthOf
    cases hfound : s.byTarget[target]? with
    | none => rfl
    | some declared =>
      have hwidest := widest_of_uniform declared (hread target declared.width)
        (hwrite target declared.width)
      simp only [Option.map_some, Option.getD_some]
      rw [hwidest]
      split <;> rfl
  have hfold := foldl_saturated (fun target => if s.writes target then
    target.leavesWritten * figure target (s.widthOf target) else 0) s.byTarget.keys 0
  rw [Nat.zero_add, sum_filter_eq] at hfold
  simp only [hprice]
  exact hfold

theorem writeBytes_eq : s.writeBytes = saturated (s.weighed fun target =>
      writtenLeaf (target.leafBytes (s.widthOf target))) :=
  total_of_uniform s (fun target width => writtenLeaf (target.leafBytes width))
    (fun target width => Mode.writeBytes target width) s.writeBytesOf (fun _ => rfl)
      (fun _ _ => rfl)
    fun _ _ mode hmode => by cases mode <;> first | rfl | exact absurd rfl hmode

theorem retainedBytes_eq :
    s.retainedBytes = saturated (s.weighed fun target => target.leafBytes (s.widthOf target)) :=
  total_of_uniform s (fun target width => target.leafBytes width)
    (fun target width => Mode.retainedBytes target width) s.retainedBytesOf (fun _ => rfl)
    (fun _ _ => rfl) fun _ _ mode hmode => by cases mode <;> first | rfl | exact absurd rfl hmode

end EffectSet

end HyperscaleVm

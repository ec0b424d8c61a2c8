import HyperscaleVm.Types.Effect

/-!
# Scheduling conflict (`kernel/src/conflict.rs`)
-/

namespace HyperscaleVm.Kernel

def targetsOverlap : EffectTarget → EffectTarget → Bool
  | .point left, .point right => left == right
  | .entry leftOwner leftCollection leftOrder, .entry rightOwner rightCollection rightOrder =>
    leftOwner == rightOwner && leftCollection == rightCollection && leftOrder == rightOrder
  | .entry entryOwner entryCollection order, .range rangeOwner rangeCollection lo hi _
  | .range rangeOwner rangeCollection lo hi _, .entry entryOwner entryCollection order =>
    entryOwner == rangeOwner && entryCollection == rangeCollection &&
      decide (lo ≤ order) && decide (order ≤ hi)
  | .range leftOwner leftCollection leftLo leftHi _,
    .range rightOwner rightCollection rightLo rightHi _ =>
    decide (leftLo ≤ leftHi) && decide (rightLo ≤ rightHi) && leftOwner == rightOwner &&
      leftCollection == rightCollection && decide (leftLo ≤ rightHi) && decide (rightLo ≤ leftHi)
  | .point _, _ | _, .point _ => false

def conflicts (a b : Effect) : Bool :=
  targetsOverlap a.target b.target && !compatible a.mode.kind b.mode.kind

theorem targetsOverlap_comm (a b : EffectTarget) : targetsOverlap a b = targetsOverlap b a := by
  cases a <;> cases b <;> simp only [targetsOverlap] <;> grind

theorem conflicts_comm (a b : Effect) : conflicts a b = conflicts b a := by
  rw [conflicts, targetsOverlap_comm, compatible_comm, conflicts]

/-- The interval a collection target names, or `none` where it names nothing an
overlap could land in (`executor.rs`). -/
def claimInterval : EffectTarget → Option (ℕ × ℕ)
  | .entry _ _ order => some (order, order)
  | .range _ _ lo hi _ => if lo ≤ hi then some (lo, hi) else none
  | .point _ => none

def collectionOf : EffectTarget → Option (Address × ℕ)
  | .entry owner collection _ | .range owner collection _ _ _ => some (owner, collection)
  | .point _ => none

theorem claimInterval_le {t : EffectTarget} {lo hi : ℕ} (h : claimInterval t = some (lo, hi)) :
    lo ≤ hi := by
  cases t <;> simp only [claimInterval] at h <;> grind

theorem targetsOverlap_iff (a b : EffectTarget) : targetsOverlap a b = true ↔
      (∃ key, a = .point key ∧ b = .point key) ∨
      ∃ c l h l' h', collectionOf a = some c ∧ collectionOf b = some c ∧
        claimInterval a = some (l, h) ∧ claimInterval b = some (l', h') ∧ l ≤ h' ∧ l' ≤ h := by
  constructor
  · intro h
    match a, b with
    | .point k, .point k' =>
      obtain rfl : k = k' := beq_iff_eq.mp h
      exact .inl ⟨k, rfl, rfl⟩
    | .entry o c n, .entry o' c' n' =>
      simp only [targetsOverlap, Bool.and_eq_true, beq_iff_eq] at h
      obtain ⟨⟨rfl, rfl⟩, rfl⟩ := h
      exact .inr ⟨(o, c), n, n, n, n, rfl, rfl, rfl, rfl, le_rfl, le_rfl⟩
    | .entry o c n, .range o' c' l u m =>
      simp only [targetsOverlap, Bool.and_eq_true, beq_iff_eq, decide_eq_true_eq] at h
      obtain ⟨⟨⟨rfl, rfl⟩, hl⟩, hu⟩ := h
      exact .inr ⟨(o, c), n, n, l, u, rfl, rfl, rfl, if_pos (hl.trans hu), hu, hl⟩
    | .range o c l u m, .entry o' c' n =>
      simp only [targetsOverlap, Bool.and_eq_true, beq_iff_eq, decide_eq_true_eq] at h
      obtain ⟨⟨⟨rfl, rfl⟩, hl⟩, hu⟩ := h
      exact .inr ⟨(_, _), l, u, n, n, rfl, rfl, if_pos (hl.trans hu), rfl, hl, hu⟩
    | .range o c l u m, .range o' c' l' u' m' =>
      simp only [targetsOverlap, Bool.and_eq_true, beq_iff_eq, decide_eq_true_eq] at h
      obtain ⟨⟨⟨⟨⟨hlu, hlu'⟩, rfl⟩, rfl⟩, h1⟩, h2⟩ := h
      exact .inr ⟨(o, c), l, u, l', u', rfl, rfl, if_pos hlu, if_pos hlu', h1, h2⟩
  · rintro (⟨key, rfl, rfl⟩ | ⟨c, l, h, l', h', hc, hc', hi, hi', h1, h2⟩)
    · simp [targetsOverlap]
    · cases a <;> cases b <;> simp only [collectionOf, claimInterval] at hc hc' hi hi' <;>
        simp only [targetsOverlap] <;> grind

end HyperscaleVm.Kernel

import HyperscaleVm.Effects.Meaning
import HyperscaleVm.Effects.Publish.Declarations

/-!
# The cells a gated access reaches (`effects/src/publish/declaration.rs`)

A leaf derived under a slot is reached only by a clause that spells the
derivation: the slot is written outright, or read off the call where the reach
lets it be, and the protocol's own slots are never read off a call but for the
one value is kept under.
-/

namespace HyperscaleVm.Effects.Publish
open Option Library

variable {H : Hasher} {E : EvalInputs} {ρ : List Value} {material : Exprs}

theorem childTarget_meaning {owner : Expr} {slot : SlotRef} {t : EffectTarget} :
    (TargetExpr.point (.childKey owner slot material)).meaning H E ρ = some t ↔
      ∃ o s parts, owner.meaning H E ρ = some (.address o) ∧ slot.meaning H E ρ true = some s ∧
        material.meaning H E ρ = some parts ∧ t = .point (childKey H o s parts) := by
  simp only [TargetExpr.meaning, Expr.meaning, do_some, some.injEq]
  constructor
  · rintro ⟨v, ⟨a, ha, o, ho, s, hs, parts, hm, rfl⟩, key, hk, rfl⟩
    refine ⟨o, s, parts, ?_, hs, hm, ?_⟩
    · cases a <;> simp [asAddress, mismatch, Except.toOption] at ho
      rw [ha, ho]
    · simp only [asKey, Except.toOption, some.injEq] at hk
      rw [hk]
  · rintro ⟨o, s, parts, ho, hs, hm, rfl⟩
    exact ⟨_, ⟨_, ho, o, rfl, s, hs, parts, hm, rfl⟩, _, rfl, rfl⟩

theorem selfChild_meaning (slot : SlotId) (material : Exprs) :
    (TargetExpr.point (selfChild slot material)).meaning H E ρ =
      (material.meaning H E ρ).map fun parts => .point (childKey H E.selfAddr slot parts) := by
  cases hm : material.meaning H E ρ <;>
    simp [TargetExpr.meaning, selfChild, Expr.meaning, SlotRef.meaning, asAddress, asKey,
      Except.toOption, hm]

theorem reachableSlot_ok {point : Bool} {named slot : ℕ}
    (h : reachableSlot point named = .ok slot) :
    PACKAGE_SLOT_BASE ≤ slot ∨ slot = VAULT ∨ slot = NF_VAULT := by
  simp only [reachableSlot] at h
  split_ifs at h with hwide hband hfits hpoint hvault hnf
  · exact .inl (by cases h; exact hband)
  · exact .inr (.inl (by cases h; simpa using hvault))
  · exact .inr (.inr (by cases h; simpa using hnf))

variable {target : TargetExpr}

theorem point_of_meaning {k : SubstateKey}
    (h : target.meaning H E ρ = some (.point k)) : ∃ key, target = .point key := by
  cases target with
  | point key => exact ⟨key, rfl⟩
  | entry owner collection material order =>
    simp only [TargetExpr.meaning, do_some, some.injEq] at h
    obtain ⟨_, -, _, -, _, -, _, -, _, -, h⟩ := h
    cases h
  | range owner collection material lo hi cap =>
    simp only [TargetExpr.meaning, do_some, some.injEq] at h
    obtain ⟨_, -, _, -, _, -, _, -, _, -, _, -, _, -, _, -, _, -, _, -, h⟩ := h
    cases h

variable {i : ℕ} {mode : ModeExpr} {denomination : Option Expr} {flat : List Clause}
  {guard : Option Expr} {reach : Option GrantedBehaviour}

theorem spelled_point {key : Expr}
    (h : judgeAccess flat i (.effect guard (.point key) mode denomination reach) = .ok ()) :
    (∃ o s material, key = .childKey o s material) ∨ ∃ slot, key = .freshKey slot := by
  cases reach with
  | none =>
    have hown := (judgeAccess_own h).1
    cases key with
    | childKey o s material => exact .inl ⟨o, s, material, rfl⟩
    | freshKey slot => exact .inr ⟨slot, rfl⟩
    | _ => cases hown
  | some behaviour =>
    obtain ⟨-, slot, material, -, -, -, hslot, -⟩ := judgeReach_ok (judgeAccess_reach h)
    cases key with
    | childKey o s material => exact .inl ⟨o, s, material, rfl⟩
    | _ => cases hslot

variable {slot : SlotId}

theorem spelled_of_gate (hH : H.Injective)
    (h : judgeAccess flat i (.effect guard target mode denomination reach) = .ok ())
    {owner : Address} {parts : List Value}
    (ht : target.meaning H E ρ = some (.point (childKey H owner slot parts))) :
    ∃ o s material, target = .point (.childKey o s material) ∧
      o.meaning H E ρ = some (.address owner) ∧ s.meaning H E ρ true = some slot ∧
      material.meaning H E ρ = some parts := by
  obtain ⟨key, rfl⟩ := point_of_meaning ht
  rcases spelled_point h with ⟨o, s, material, rfl⟩ | ⟨n, rfl⟩
  · obtain ⟨o', s', parts', ho, hs, hp, heq⟩ := childTarget_meaning.mp ht
    simp only [childKey, EffectTarget.point.injEq, SubstateKey.mk.injEq] at heq
    obtain ⟨rfl, hc⟩ := heq
    obtain ⟨rfl, rfl⟩ := hH.child hc
    exact ⟨o, s, material, rfl, ho, hs, hp⟩
  · simp only [TargetExpr.meaning, Expr.meaning, asKey, Except.toOption, bind_eq_bind,
      bind_some, some.injEq, EffectTarget.point.injEq, childKey,
      SubstateKey.mk.injEq] at ht
    exact (hH.fresh ht.2.symm).elim

theorem fixed_of_meaning {s : SlotRef} (h : s.meaning H E ρ true = some slot)
    (hprotocol : slot < PACKAGE_SLOT_BASE) (hvault : slot ≠ VAULT) (hnf : slot ≠ NF_VAULT) :
    s = .fixed slot := by
  cases s with
  | fixed slot' =>
    cases h
    rfl
  | reached e =>
    simp only [SlotRef.meaning, do_some] at h
    obtain ⟨v, -, named, -, h⟩ := h
    cases hr : reachableSlot true named with
    | error e => simp [hr, Except.toOption] at h
    | ok slot' =>
      simp only [hr, Except.toOption, some.injEq] at h
      subst h
      rcases reachableSlot_ok hr with h' | h' | h'
      · exact absurd hprotocol (Nat.not_lt.mpr h')
      · exact absurd h' hvault
      · exact absurd h' hnf

theorem flag_of_shape {requires : Option Presence}
    (hs : slotOf target = some (.fixed HALT, material))
    (h : protocolShape i target mode denomination requires = .ok ()) :
    target.isPoint = true ∧ material.toList.length = 1 ∧ denomination = none := by
  unfold protocolShape at h
  rw [hs] at h
  simp only [vocabularyShape, KERNEL_SLOT_BASE, PACKAGE_SLOT_BASE, CONFIG, VAULT, NF_VAULT, AUTH,
    HALT] at h
  simp at h
  exact ⟨h.1.1, h.1.2.1, h.1.2.2⟩

end HyperscaleVm.Effects.Publish

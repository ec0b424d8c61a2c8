import HyperscaleVm.Effects.Admission.Numbering

/-!
# Resolving a tree never panics (`effects/src/admission/tree.rs`)
-/

namespace HyperscaleVm.Effects.Admission
open Library List Option

variable {fits : Prop}

def Flattened.Holds (flat : Flattened) (node : ℕ × ℕ) : Prop :=
  ∃ holder, flat.intents[node.1]? = some holder ∧ node.2 < holder.nodes.length

section

variable {flat : Flattened} {steps intent give composer socket : ℕ} {filled : Fill}

theorem yielded_holds {produced : Produced} (h : yielded flat steps intent give = .ok produced) :
    flat.Holds (produced.intent, produced.edge.producer) := by
  induction steps generalizing intent give with
  | zero => cases h
  | succ steps ih =>
    rw [yielded] at h
    obtain ⟨giver, hgiver, h⟩ := bind_ok.mp h
    split at h
    · cases h
    · obtain ⟨hproducer, h⟩ := seq_ok.mp h
      cases h
      exact ⟨giver, intentAt_ok.mp hgiver, by simpa using hproducer⟩
    · obtain ⟨-, h⟩ := seq_ok.mp h
      obtain ⟨child, -, below, -, h⟩ := binds_ok.mp h
      obtain ⟨-, h⟩ := seq_ok.mp h
      exact ih h
    · cases h

theorem fillValue_ok {above : ℕ → Except AdmissionError Fill} {resource : ResourceAddr}
    {source : ValueRef}
    (h : fillValue flat above composer resource source intent socket = .ok filled) :
    ∃ produced through, filled = .value produced through ∧
      ((∀ passed filled, above passed = .ok filled → ∀ node, filled.waitsOn = some node →
        flat.Holds node) → flat.Holds (produced.intent, produced.edge.producer)) := by
  obtain ⟨holder, hholder, h⟩ := bind_ok.mp h
  cases source with
  | edge edge =>
    obtain ⟨hproducer, h⟩ := seq_ok.mp h
    cases h
    exact ⟨_, _, rfl, fun _ => ⟨holder, intentAt_ok.mp hholder, by simpa using hproducer⟩⟩
  | give give =>
    obtain ⟨-, h⟩ := seq_ok.mp h
    obtain ⟨child, -, below, -, h⟩ := binds_ok.mp h
    obtain ⟨-, h⟩ := seq_ok.mp h
    obtain ⟨produced, hproduced, h⟩ := bind_ok.mp h
    cases h
    exact ⟨_, _, rfl, fun _ => yielded_holds hproduced⟩
  | socket passed =>
    dsimp only at h
    split at h
    · obtain ⟨-, h⟩ := seq_ok.mp h
      obtain ⟨found, hfound, h⟩ := bind_ok.mp h
      cases found with
      | value produced through =>
        cases h
        exact ⟨_, _, rfl, fun habove => habove passed _ hfound _ rfl⟩
      | claim | account => cases h
    · cases h

end

section

variable {root : Intent}

variable {steps number : ℕ}

variable {above : ℕ → Except AdmissionError Fill} {composer intent socket : ℕ} {holder : Intent}

end

end HyperscaleVm.Effects.Admission

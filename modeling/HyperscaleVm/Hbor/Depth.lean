import HyperscaleVm.Hbor.Codec
import HyperscaleVm.Library.CodecDepth

/-!
# Recursion and depth on the wire

Each kind of type reaches its parts further down, so a recursive type may be written
over itself, and each adds its own levels to what it is built of.
-/

namespace HyperscaleVm.Hbor

open Library
open Library.Codec (Charges Shallow Same)

variable {α β : Type} {c c' : Wire α} {room : ℕ} {lo hi : α → ℕ} {enough : ℕ}

theorem nested_same (h : ∀ below < room, Same below c c') : Same room (nested c) (nested c') :=
  Same.descend h

variable {cap : Option ℕ} {follows : Option α → α → Except DecodeError Unit} {hwidth : 0 < c.width}

theorem sequence_same {hwidth' : 0 < c'.width} (heq : c.width = c'.width)
    (h : ∀ below < room, Same below c c') :
    Same room (sequence cap follows c hwidth) (sequence cap follows c' hwidth') :=
  Same.sized (by rw [heq]) fun _ => nested_same fun below hbelow => (h below hbelow).many

variable {tagOf : α → UInt8} {tag : UInt8} {make : β → α} {view : α → Option β}
  {hview : ∀ v b, view v = some b ↔ make b = v} {htag : ∀ b, tagOf (make b) = tag}

theorem variant_same {c c' : Wire β} (h : Same room c c') :
    Codec.Arm.Same room (variant tag c make view hview htag)
      (variant tag c' make view hview htag) :=
  h.variant

theorem sequence_written
    (hwidth : 0 < c.width) {vs : List α} (h : Codec.Written (sequence cap follows c hwidth) vs) :
    vs.length ≤ MAX_LENGTH ∧ ∀ v ∈ vs, Codec.Written c v := by
  obtain ⟨⟨room, bytes, hlength⟩, hvs⟩ := h.sized
  refine ⟨?_, hvs.descend.many⟩
  by_contra hlong
  cases (if_pos (Nat.lt_of_not_le hlong)).symm.trans hlength

theorem raw_shallow (n : ℕ) : Shallow 0 (Codec.raw n (short n) : Wire _) :=
  .flat fun _ _ _ => rfl

theorem lengthField_shallow : Shallow 0 lengthField := .flat fun _ _ _ => rfl

theorem byte_shallow : Shallow 0 byte := (raw_shallow 1).iso

theorem uint_shallow (bytes : ℕ) : Shallow 0 (uint bytes) := (raw_shallow bytes).via

theorem bool_shallow : Shallow 0 bool := byte_shallow.via

theorem copied_shallow (n : ℕ) : Shallow 0 (copied n) := (raw_shallow n).via

theorem string_shallow (cap : Option ℕ) : Shallow 0 (string cap) := by
  refine Shallow.via fun room => ?_
  exact Charges.sized (lengthField_shallow room) fun n => copied_shallow n room

theorem nested_charges (h : ∀ below < room, Charges below c lo hi) :
    Charges room (nested c) (fun v => lo v + 1) (fun v => hi v + 1) :=
  Charges.descend h

theorem nested_shallow (h : Shallow enough c) : Shallow (enough + 1) (nested c) := h.descend

theorem bytes_charges (cap : Option ℕ) : Charges room (bytes cap) (fun _ => 1) (fun _ => 1) :=
  Charges.sized (lengthField_shallow room) fun n => nested_charges fun below _ =>
    copied_shallow n below

theorem bytes_shallow (cap : Option ℕ) : Shallow 1 (bytes cap) :=
  fun _ => (bytes_charges cap).mono (fun _ => Nat.zero_le _) fun _ => le_rfl

theorem sequence_charges (h : ∀ below < room, Charges below c lo hi) :
    Charges room (sequence cap follows c hwidth) (fun vs => deepest lo vs + 1)
      (fun vs => deepest hi vs + 1) :=
  Charges.sized (lengthField_shallow room) fun _ => nested_charges fun below hbelow =>
    (h below hbelow).many

theorem sequence_shallow (h : Shallow enough c) :
    Shallow (enough + 1) (sequence cap follows c hwidth) :=
  fun room => Charges.sized (lengthField_shallow room) fun _ => nested_shallow h.many room

theorem vec_shallow (h : Shallow enough c) : Shallow (enough + 1) (vec cap c hwidth) :=
  sequence_shallow h

variable {arms : List (Codec.Arm EncodeError DecodeError tagOf)} {width : ℕ}

theorem enum_charges {hwidth : ∀ arm ∈ arms, width ≤ 1 + arm.codec.width}
    (h : ∀ arm ∈ arms, Charges room arm.codec lo hi) :
    Charges room (enum tagOf arms width hwidth) lo hi :=
  Charges.enum (byte_shallow room) h

theorem enum_shallow {hwidth : ∀ arm ∈ arms, width ≤ 1 + arm.codec.width}
    (h : ∀ arm ∈ arms, Shallow enough arm.codec) : Shallow enough (enum tagOf arms width hwidth) :=
  fun room => enum_charges fun arm harm => h arm harm room

theorem variant_shallow {c : Wire β} (h : Shallow enough c) :
    Shallow enough (variant tag c make view hview htag).codec :=
  fun room => (h room).variant fun _ => ⟨le_rfl, le_rfl⟩

theorem variant_charges {c : Wire β} {lo' hi' : β → ℕ} (h : Charges room c lo' hi')
    (hcharge : ∀ b, lo (make b) ≤ lo' b ∧ hi' b ≤ hi (make b)) :
    Charges room (variant tag c make view hview htag).codec lo hi :=
  h.variant hcharge

theorem option_shallow (h : Shallow enough c) : Shallow (enough + 1) (option c) := by
  apply enum_shallow
  intro arm harm
  rcases List.mem_pair.mp harm with rfl | rfl
  · exact variant_shallow ((Shallow.flat fun _ _ _ => rfl).mono (Nat.zero_le _))
  · exact variant_shallow (nested_shallow h)

end HyperscaleVm.Hbor

import HyperscaleVm.Hbor.Codec
import Mathlib.Data.Prod.Lex
import Mathlib.Order.WithBot
import Mathlib.Data.List.Lex

/-!
# The types the codec is implemented for

A type is named by how it is built, with the fewest bytes it takes in its own name, so
that a sequence over elements of no width cannot be written down.
-/

namespace HyperscaleVm.Hbor

open Library List

section Sorted

variable {α κ : Type} [LinearOrder κ] {key : α → κ}

theorem ascending_ok {last : Option α} {v : α} :
    ascending key last v = .ok () ↔ ∀ l ∈ last, key l < key v := by
  cases last with
  | none | some => simp [ascending]

theorem following_ascending {last : Option α} {vs : List α} :
    Codec.Following (ascending key) last vs ↔
      (∀ l ∈ last, ∀ v ∈ vs, key l < key v) ∧ vs.Pairwise (key · < key ·) := by
  induction vs generalizing last with
  | nil => simp [Codec.Following]
  | cons v vs ih =>
    rw [Codec.Following, ascending_ok, ih, pairwise_cons]
    constructor
    · rintro ⟨hlast, hv, hsorted⟩
      have hhead : ∀ w ∈ vs, key v < key w := hv v rfl
      refine ⟨fun l hl w hw => ?_, hhead, hsorted⟩
      rcases mem_cons.mp hw with rfl | hw
      · exact hlast l hl
      · exact (hlast l hl).trans (hhead w hw)
    · rintro ⟨hlast, hhead, hsorted⟩
      refine ⟨fun l hl => hlast l hl v mem_cons_self, ?_, hsorted⟩
      rintro l ⟨⟩
      exact hhead

end Sorted

theorem following_all {α : Type} {last : Option α} {vs : List α} :
    Codec.Following (fun _ _ => (.ok () : Except DecodeError Unit)) last vs := by
  induction vs generalizing last with
  | nil => trivial
  | cons v vs ih => exact ⟨rfl, ih⟩

def held {α : Type} (c : Wire α) (fits : α → Prop) [DecidablePred fits] :
    Wire { v : α // fits v } :=
  c.via (fun v => .ok v.1)
    (fun v => if h : fits v then .ok ⟨v, h⟩ else .error (.failedValidation "unreachable")) (by
      rintro v ⟨v', h⟩
      constructor
      · intro hbuild
        split at hbuild
        · exact congrArg Except.ok (congrArg Subtype.val (Except.ok.inj hbuild)).symm
        · cases hbuild
      · intro hview
        cases hview
        exact dif_pos h)

inductive Ty : ℕ → Type where
  /-- `u8` to `u128`. -/
  | uint (width : ℕ) : Ty width
  /-- `i8` to `i128`. -/
  | sint (width : ℕ) : Ty width
  | bool : Ty 1
  | unit : Ty 0
  /-- `[u8; n]`. -/
  | array (n : ℕ) : Ty n
  | pair {a b : ℕ} (fst : Ty a) (snd : Ty b) : Ty (a + b)
  | triple {a b c : ℕ} (fst : Ty a) (snd : Ty b) (third : Ty c) : Ty (a + (b + c))
  | quad {a b c d : ℕ} (fst : Ty a) (snd : Ty b) (third : Ty c) (fourth : Ty d) :
      Ty (a + (b + (c + d)))
  | option {n : ℕ} (element : Ty n) : Ty 1
  | box {n : ℕ} (element : Ty n) : Ty n
  /-- `Vec<T>`, or under a cap `Capped<Vec<T>, N>`; sets and maps likewise. -/
  | vec (cap : Option ℕ) {n : ℕ} (element : Ty n) (h : 0 < n) : Ty 1
  | set (cap : Option ℕ) {n : ℕ} (element : Ty n) (h : 0 < n) : Ty 1
  | map (cap : Option ℕ) {k v : ℕ} (key : Ty k) (value : Ty v) (h : 0 < k + v) : Ty 1
  /-- `String`, or under a cap `Text<N>`. -/
  | string (cap : Option ℕ) : Ty 1
  /-- `Bytes<N>`. -/
  | bytes (max : ℕ) : Ty 1

structure Meaning (width : ℕ) where
  Carrier : Type
  order : LinearOrder Carrier
  codec : Wire Carrier
  width_eq : codec.width = width
  /-- A value of the type has passed every check reading makes. -/
  total : ∀ v, codec.valid v

attribute [instance] Meaning.order

namespace Meaning

def littleEndian (width : ℕ) : BitVec (8 * width) ≃ { bytes : Bytes // bytes.length = width } where
  toFun n := ⟨leBytes width n.toNat, length_leBytes width n.toNat⟩
  invFun bytes := BitVec.ofNat (8 * width) (ofLeBytes bytes.1)
  left_inv n := by
    have hpow : 2 ^ (8 * width) = 256 ^ width := by rw [pow_mul]; norm_num
    have hlt : n.toNat < 256 ^ width := hpow ▸ n.isLt
    dsimp only
    rw [ofLeBytes_leBytes hlt, BitVec.ofNat_toNat, BitVec.setWidth_eq]
  right_inv bytes := by
    obtain ⟨bytes, rfl⟩ := bytes
    have hpow : 2 ^ (8 * bytes.length) = 256 ^ bytes.length := by rw [pow_mul]; norm_num
    apply Subtype.ext
    dsimp only
    rw [BitVec.toNat_ofNat, hpow, Nat.mod_eq_of_lt (ofLeBytes_lt bytes), leBytes_ofLeBytes]

def int (width : ℕ) (order : LinearOrder (BitVec (8 * width))) : Meaning width where
  Carrier := BitVec (8 * width)
  order := order
  codec := (Codec.raw width (short width)).iso (littleEndian width)
  width_eq := rfl
  total _ _ _ := trivial

def uint (width : ℕ) : Meaning width :=
  int width (LinearOrder.lift' BitVec.toNat fun _ _ h => BitVec.eq_of_toNat_eq h)

def sint (width : ℕ) : Meaning width :=
  int width (LinearOrder.lift' BitVec.toInt fun _ _ h => BitVec.eq_of_toInt_eq h)

def bool : Meaning 1 where
  Carrier := Bool
  order := inferInstance
  codec := Hbor.bool
  width_eq := rfl
  total _ _ _ _ _ := trivial

def unit : Meaning 0 where
  Carrier := Unit
  order := inferInstanceAs (LinearOrder PUnit)
  codec := Codec.empty
  width_eq := rfl
  total _ := trivial

abbrev byteOrder : LinearOrder UInt8 :=
  LinearOrder.lift' UInt8.toNat fun _ _ h => UInt8.toNat_inj.mp h

abbrev bytesOrder : LinearOrder Bytes := @List.instLinearOrder UInt8 byteOrder

def array (n : ℕ) : Meaning n where
  Carrier := { bytes : Bytes // bytes.length = n }
  order := @LinearOrder.lift' _ _ bytesOrder Subtype.val Subtype.val_injective
  codec := Codec.raw n (short n)
  width_eq := rfl
  total _ := trivial

section Members

variable {a b c d : ℕ} (fst : Meaning a) (snd : Meaning b) (third : Meaning c) (fourth : Meaning d)

def pair : Meaning (a + b) where
  Carrier := fst.Carrier × snd.Carrier
  order := inferInstanceAs (LinearOrder (fst.Carrier ×ₗ snd.Carrier))
  codec := (nested fst.codec).seq (nested snd.codec)
  width_eq := congrArg₂ (· + ·) fst.width_eq snd.width_eq
  total v := ⟨fst.total v.1, snd.total v.2⟩

def triple : Meaning (a + (b + c)) where
  Carrier := fst.Carrier × snd.Carrier × third.Carrier
  order := inferInstanceAs (LinearOrder (fst.Carrier ×ₗ snd.Carrier ×ₗ third.Carrier))
  codec := (nested fst.codec).seq ((nested snd.codec).seq (nested third.codec))
  width_eq := congrArg₂ (· + ·) fst.width_eq (congrArg₂ (· + ·) snd.width_eq third.width_eq)
  total v := ⟨fst.total v.1, snd.total v.2.1, third.total v.2.2⟩

def quad : Meaning (a + (b + (c + d))) where
  Carrier := fst.Carrier × snd.Carrier × third.Carrier × fourth.Carrier
  order := inferInstanceAs
    (LinearOrder (fst.Carrier ×ₗ snd.Carrier ×ₗ third.Carrier ×ₗ fourth.Carrier))
  codec := (nested fst.codec).seq
    ((nested snd.codec).seq ((nested third.codec).seq (nested fourth.codec)))
  width_eq := congrArg₂ (· + ·) fst.width_eq
    (congrArg₂ (· + ·) snd.width_eq (congrArg₂ (· + ·) third.width_eq fourth.width_eq))
  total v := ⟨fst.total v.1, snd.total v.2.1, third.total v.2.2.1, fourth.total v.2.2.2⟩

end Members

def option {n : ℕ} (element : Meaning n) : Meaning 1 where
  Carrier := Option element.Carrier
  order := inferInstanceAs (LinearOrder (WithBot element.Carrier))
  codec := Hbor.option element.codec
  width_eq := rfl
  total v := by
    intro arm harm
    rcases mem_pair.mp (Codec.armOf_some harm).1 with rfl | rfl
    · exact Codec.variant_valid.mpr fun _ _ => trivial
    · exact Codec.variant_valid.mpr fun w _ => element.total w

section Collections

variable (cap : Option ℕ) {n k w : ℕ} (element : Meaning n) (key : Meaning k) (value : Meaning w)

/-- A sequence of a kind whose lists are those `fits` keeps, in lexicographic order. -/
def collection {α : Type} (order : LinearOrder α) (c : Wire α) (h : 0 < c.width)
    (hvalid : ∀ v, c.valid v) (follows : Option α → α → Except DecodeError Unit)
    (fits : List α → Prop) [DecidablePred fits]
    (hfits : ∀ vs, fits vs → Codec.Following follows none vs) : Meaning 1 where
  Carrier := { vs : List α // fits vs ∧ Within cap vs.length }
  order := @LinearOrder.lift' _ _ (@List.instLinearOrder α order) Subtype.val Subtype.val_injective
  codec := held (sequence cap follows c h) fun vs => fits vs ∧ Within cap vs.length
  width_eq := rfl
  total := by
    rintro ⟨vs, hfit, hwithin⟩ _ hview
    cases hview
    exact ⟨hwithin, hfits vs hfit, fun v _ => hvalid v⟩

def vec (h : 0 < n) : Meaning 1 :=
  collection cap element.order element.codec (element.width_eq.symm ▸ h) element.total
    (fun _ _ => .ok ()) (fun _ => True) fun _ _ => following_all

def set (h : 0 < n) : Meaning 1 :=
  collection cap element.order element.codec (element.width_eq.symm ▸ h) element.total
    (ascending id) (·.Pairwise (· < ·)) fun _ hsorted => following_ascending.mpr
      ⟨fun _ hl => (nomatch hl), hsorted⟩

def map (h : 0 < k + w) : Meaning 1 :=
  collection cap (inferInstanceAs (LinearOrder (key.Carrier ×ₗ value.Carrier)))
    (key.codec.seq value.codec) (by
      have hwidth : (key.codec.seq value.codec).width = k + w :=
        congrArg₂ (· + ·) key.width_eq value.width_eq
      rw [hwidth]
      exact h) (fun v => ⟨key.total v.1, value.total v.2⟩)
    (ascending Prod.fst) (·.Pairwise (·.1 < ·.1)) fun _ hsorted => following_ascending.mpr
      ⟨fun _ hl => (nomatch hl), hsorted⟩

end Collections

def string (cap : Option ℕ) : Meaning 1 where
  Carrier := { text : String // Within cap (utf8 text).length }
  order := @LinearOrder.lift' _ _ bytesOrder (fun text => utf8 text.1) fun _ _ h =>
    Subtype.ext (utf8_inj h)
  codec := held (Hbor.string cap) fun text => Within cap (utf8 text).length
  width_eq := rfl
  total := by
    rintro ⟨text, hwithin⟩ _ hview
    cases hview
    rintro _ hbytes
    cases hbytes
    exact ⟨hwithin, fun _ _ => trivial⟩

def bytes (max : ℕ) : Meaning 1 where
  Carrier := { bytes : Bytes // Within (some max) bytes.length }
  order := @LinearOrder.lift' _ _ bytesOrder Subtype.val Subtype.val_injective
  codec := held (Hbor.bytes (some max)) fun bytes => Within (some max) bytes.length
  width_eq := rfl
  total := by
    rintro ⟨bytes, hwithin⟩ _ hview
    cases hview
    exact ⟨hwithin, fun _ _ => trivial⟩

end Meaning

def Ty.meaning : {width : ℕ} → Ty width → Meaning width
  | _, .uint width => .uint width
  | _, .sint width => .sint width
  | _, .bool => .bool
  | _, .unit => .unit
  | _, .array n => .array n
  | _, .pair fst snd => fst.meaning.pair snd.meaning
  | _, .triple fst snd third => fst.meaning.triple snd.meaning third.meaning
  | _, .quad fst snd third fourth =>
    fst.meaning.quad snd.meaning third.meaning fourth.meaning
  | _, .option element => element.meaning.option
  | _, .box element => element.meaning
  | _, .vec cap element h => element.meaning.vec cap h
  | _, .set cap element h => element.meaning.set cap h
  | _, .map cap key value h => Meaning.map cap key.meaning value.meaning h
  | _, .string cap => .string cap
  | _, .bytes max => .bytes max

/-- A byte string is read as a value of a type exactly when the value is written as it,
at every cap on nesting. -/
theorem codec_is_canonical {width : ℕ} (t : Ty width) (maxDepth : ℕ) (bytes : Bytes)
    (v : t.meaning.Carrier) : fromSliceWithDepth t.meaning.codec bytes maxDepth = .ok v ↔
      toVecWithDepth t.meaning.codec v maxDepth = .ok bytes := by
  rw [fromSliceWithDepth_ok]
  exact and_iff_right (t.meaning.total v)

-- a length, then each element's tag and, two levels down, its number
example : toVecWithDepth (Ty.vec none (.option (.uint 2)) Nat.one_pos).meaning.codec
    ⟨[some 258#16, none], trivial, fun _ h => nomatch h⟩ 2 = .ok [2, 1, 2, 1, 0] := rfl

end HyperscaleVm.Hbor

import HyperscaleVm.Library.Codec

/-!
# The wire format (`hbor/src/{varint,encode,decode,primitive,collection,bounded,capped}.rs`)

Fixed-width integers are little endian, a sequence is a minimal length field and its
elements one level down, and reading refuses every byte string writing would not have
produced. An encoder's depth counts down here: the room it has left is its cap less the
levels it has descended, so `DepthExceeded` names no cap.
-/

namespace HyperscaleVm.Hbor

open Library List

inductive EncodeError where
  | lengthTooLarge (actual max : ℕ)
  | depthExceeded
  /-- No value of the source's own type: a number past its width, or another variant. -/
  | unrepresentable
  deriving DecidableEq

inductive DecodeError where
  | unexpectedEof (needed remaining : ℕ)
  | trailingBytes (remaining : ℕ)
  | nonMinimalLength
  | lengthTooLarge
  | lengthExceedsInput (claimed capacity : ℕ)
  | boundExceeded (max actual : ℕ)
  | depthExceeded
  | invalidBool (byte : UInt8)
  | invalidDiscriminant (byte : UInt8)
  | invalidUtf8
  | failedValidation (reason : String)
  | unsortedKeys

abbrev Wire := Codec EncodeError DecodeError

def MAX_LENGTH : ℕ := 0x0FFFFFFF
def DEFAULT_MAX_DEPTH : ℕ := 64

def varintBytes : ℕ → ℕ → Bytes
  | 0, _ => []
  | more + 1, rest =>
    if rest / 128 = 0 then [UInt8.ofNat (rest % 128)]
    else UInt8.ofNat (rest % 128 + 128) :: varintBytes more (rest / 128)

/-- Reading on from `shift` bits with `value` read, through at most so many bytes more. -/
def varintRead : ℕ → ℕ → ℕ → Bytes → Except DecodeError (ℕ × Bytes)
  | 0, _, _, _ => .error .lengthTooLarge
  | _ + 1, _, _, [] => .error (.unexpectedEof 1 0)
  | more + 1, value, shift, byte :: input =>
    let value := value + byte.toNat % 128 * 2 ^ shift
    if byte.toNat < 128 then
      if byte = 0 ∧ shift ≠ 0 then .error .nonMinimalLength else .ok (value, input)
    else varintRead more value (shift + 7) input

theorem toNat_ofNat {n : ℕ} (h : n < 256) : (UInt8.ofNat n).toNat = n := by
  rw [UInt8.toNat_ofNat', Nat.mod_eq_of_lt h]

theorem ofNat_toNat (byte : UInt8) : UInt8.ofNat byte.toNat = byte := UInt8.ofNat_toNat

theorem varintRead_ok {more value shift n : ℕ} {input rest : Bytes} (hmore : shift = 0 → more ≠ 0) :
    varintRead more value shift input = .ok (n, rest) ↔
      ∃ m, m < 128 ^ more ∧ (shift ≠ 0 → m ≠ 0) ∧ n = value + m * 2 ^ shift ∧
        input = varintBytes more m ++ rest := by
  induction more generalizing value shift input with
  | zero =>
    constructor
    · intro h
      cases h
    · rintro ⟨m, hm, hnonzero, -, -⟩
      have hshift : shift ≠ 0 := fun h => hmore h rfl
      rw [pow_zero, Nat.lt_one_iff] at hm
      exact absurd hm (hnonzero hshift)
  | succ more ih =>
    have hscale : ∀ low high : ℕ,
        (low + 128 * high) * 2 ^ shift = low * 2 ^ shift + high * 2 ^ (shift + 7) := by
      intro low high
      rw [pow_add]
      ring
    constructor
    · intro h
      cases input with
      | nil => cases h
      | cons byte input =>
        have hbyte : byte.toNat < 256 := byte.toNat_lt
        simp only [varintRead] at h
        by_cases hlast : byte.toNat < 128
        · -- the last byte is all there is left of the number
          rw [if_pos hlast] at h
          split at h
          · cases h
          rename_i hminimal
          cases h
          have hmod : byte.toNat % 128 = byte.toNat := Nat.mod_eq_of_lt hlast
          refine ⟨byte.toNat, ?_, ?_, by rw [hmod], ?_⟩
          · have hpow : 0 < 128 ^ more := by positivity
            rw [pow_succ]
            omega
          · intro hshift hzero
            exact hminimal ⟨UInt8.toNat_inj.mp hzero, hshift⟩
          · rw [varintBytes, if_pos (Nat.div_eq_of_lt hlast), hmod, ofNat_toNat]
            rfl
        · rw [if_neg hlast] at h
          obtain ⟨m, hm, hnonzero, rfl, rfl⟩ := (ih (by omega)).mp h
          have hm0 : m ≠ 0 := hnonzero (by omega)
          have hdiv : (byte.toNat % 128 + 128 * m) / 128 = m := by omega
          have hmod : (byte.toNat % 128 + 128 * m) % 128 + 128 = byte.toNat := by omega
          refine ⟨byte.toNat % 128 + 128 * m, ?_, by omega, ?_, ?_⟩
          · rw [pow_succ]
            omega
          · rw [hscale]
            omega
          · rw [varintBytes, hdiv, if_neg hm0, hmod, ofNat_toNat]
            rfl
    · rintro ⟨m, hm, hnonzero, rfl, rfl⟩
      by_cases hlast : m / 128 = 0
      · have hsmall : m < 128 := by omega
        have hmod : m % 128 = m := Nat.mod_eq_of_lt hsmall
        have hbyte : (UInt8.ofNat m).toNat = m := toNat_ofNat (by omega)
        have hminimal : ¬(UInt8.ofNat m = 0 ∧ shift ≠ 0) := by
          rintro ⟨hzero, hshift⟩
          rw [hzero] at hbyte
          exact hnonzero hshift hbyte.symm
        rw [varintBytes, if_pos hlast, hmod]
        simp only [singleton_append, varintRead, hbyte]
        rw [if_pos hsmall, if_neg hminimal, hmod]
      · have hbyte : (UInt8.ofNat (m % 128 + 128)).toNat = m % 128 + 128 := toNat_ofNat (by omega)
        have hgo : ¬m % 128 + 128 < 128 := by omega
        rw [varintBytes, if_neg hlast]
        simp only [cons_append, varintRead, hbyte]
        rw [if_neg hgo]
        refine (ih (by omega)).mpr ⟨m / 128, ?_, fun _ => hlast, ?_, rfl⟩
        · rw [pow_succ] at hm
          omega
        · have hsplit : m = m % 128 + 128 * (m / 128) := by omega
          rw [Nat.add_mod_right, Nat.mod_mod, add_assoc, ← hscale, ← hsplit]

theorem varintBytes_ne_nil (more m : ℕ) : 0 < (varintBytes (more + 1) m).length := by
  rw [varintBytes]
  split <;> simp

theorem varintBytes_separates {more m m' : ℕ} {rest rest' : Bytes} (hm : m < 128 ^ (more + 1))
    (hm' : m' < 128 ^ (more + 1))
    (h : varintBytes (more + 1) m ++ rest = varintBytes (more + 1) m' ++ rest') :
    m = m' ∧ rest = rest' := by
  have hread : ∀ k tail, k < 128 ^ (more + 1) →
      varintRead (more + 1) 0 0 (varintBytes (more + 1) k ++ tail) = .ok (k, tail) := by
    intro k tail hk
    refine (varintRead_ok (by omega)).mpr ⟨k, hk, by omega, ?_, rfl⟩
    rw [pow_zero, mul_one, zero_add]
  have hboth := hread m rest hm
  rw [h, hread m' rest' hm'] at hboth
  cases hboth
  exact ⟨rfl, rfl⟩

def lengthField : Wire ℕ where
  width := 1
  valid _ := True
  encode _ value :=
    if MAX_LENGTH < value then .error (.lengthTooLarge value MAX_LENGTH)
    else .ok (varintBytes 4 value)
  decode _ input := varintRead 4 0 0 input
  sound := by
    intro room input n rest h
    obtain ⟨m, hm, -, hn, hinput⟩ := (varintRead_ok (by omega)).mp h
    rw [pow_zero, mul_one, zero_add] at hn
    subst hn
    have hmax : ¬MAX_LENGTH < n := by
      rw [MAX_LENGTH]
      omega
    exact ⟨trivial, _, if_neg hmax, hinput⟩
  complete := by
    intro room n bytes rest _ h
    split at h
    · cases h
    rename_i hmax
    cases h
    rw [MAX_LENGTH] at hmax
    refine (varintRead_ok (by omega)).mpr ⟨n, by omega, by omega, ?_, rfl⟩
    rw [pow_zero, mul_one, zero_add]
  separates := by
    intro room n n' bytes bytes' rest rest' h h' heq
    split at h
    · cases h
    split at h'
    · cases h'
    rename_i hmax hmax'
    cases h
    cases h'
    rw [MAX_LENGTH] at hmax hmax'
    exact varintBytes_separates (by omega) (by omega) heq
  wide := by
    intro room n bytes h
    split at h
    · cases h
    · cases h
      exact varintBytes_ne_nil 3 n

def short (n remaining : ℕ) : DecodeError := .unexpectedEof n remaining

def byte : Wire UInt8 :=
  (Codec.raw 1 (short 1)).iso
    { toFun := fun b => ⟨[b], rfl⟩
      invFun :=
        fun bytes => bytes.1.head (ne_nil_of_length_pos (by rw [bytes.2]; exact Nat.one_pos))
      left_inv := fun _ => rfl
      right_inv := by
        rintro ⟨bytes, h⟩
        obtain ⟨b, rfl⟩ := length_eq_one_iff.mp h
        rfl }

def uint (bytes : ℕ) : Wire ℕ :=
  (Codec.raw bytes (short bytes)).via
    (fun n => if n < 256 ^ bytes then .ok ⟨leBytes bytes n, length_leBytes bytes n⟩
      else .error .unrepresentable)
    (fun raw => .ok (ofLeBytes raw.1)) (by
      rintro ⟨raw, rfl⟩ n
      constructor
      · intro h
        cases h
        rw [if_pos (ofLeBytes_lt raw)]
        congr 1
        exact Subtype.ext (leBytes_ofLeBytes raw)
      · intro h
        split at h
        · rename_i hn
          have hraw := congrArg Subtype.val (Except.ok.inj h)
          rw [← hraw, ofLeBytes_leBytes hn]
        · cases h)

def bool : Wire Bool :=
  byte.via (fun b => .ok (if b then 1 else 0))
    (fun byte => if byte = 0 then .ok false else if byte = 1 then .ok true
      else .error (.invalidBool byte)) (by
      intro byte b
      by_cases h0 : byte = 0
      · subst h0
        cases b <;> simp
      · by_cases h1 : byte = 1
        · subst h1
          cases b <;> simp
        · cases b <;> simp [h0, h1, eq_comm])

def nested {α : Type} (c : Wire α) : Wire α := c.descend .depthExceeded .depthExceeded

def readLen (width : ℕ) (cap : Option ℕ) (claimed remaining : ℕ) : Except DecodeError Unit :=
  if remaining / width < claimed then .error (.lengthExceedsInput claimed (remaining / width))
  else
    match cap with
    | none => .ok ()
    | some max => if max < claimed then .error (.boundExceeded max claimed) else .ok ()

def Within (cap : Option ℕ) (length : ℕ) : Prop := ∀ max ∈ cap, length ≤ max

instance (cap : Option ℕ) (length : ℕ) : Decidable (Within cap length) :=
  match cap with
  | none => isTrue fun _ h => nomatch h
  | some max => decidable_of_iff (length ≤ max) (by simp [Within])

theorem readLen_ok {width claimed remaining : ℕ} {cap : Option ℕ} (hwidth : 0 < width) :
    readLen width cap claimed remaining = .ok () ↔ claimed * width ≤ remaining ∧
      Within cap claimed := by
  have hcapacity : claimed * width ≤ remaining ↔ ¬remaining / width < claimed := by
    rw [not_lt, Nat.le_div_iff_mul_le hwidth]
  rw [hcapacity, readLen.eq_def]
  by_cases hshort : remaining / width < claimed
  · simp [hshort]
  cases cap with
  | none => simp [hshort, Within]
  | some max =>
    by_cases hmax : max < claimed
    · simp [hshort, hmax, Within]
    · simp [hshort, hmax, Within, Nat.le_of_not_lt hmax]

section Sequences

variable {α : Type}

def sequence (cap : Option ℕ) (follows : Option α → α → Except DecodeError Unit) (c : Wire α)
    (h : 0 < c.width) : Wire (List α) :=
  Codec.sized lengthField (readLen c.width cap) (Within cap)
    (fun n => nested (c.many follows .unrepresentable n)) List.length
    (by
      intro n room vs bytes hwrite
      cases room with
      | zero => cases hwrite
      | succ room =>
        by_contra hne
        have hrefused : (c.many follows .unrepresentable n).encode room vs =
          .error .unrepresentable :=
          if_neg hne
        rw [nested, Codec.descend, hrefused] at hwrite
        cases hwrite)
    (fun _ => trivial) (fun hjudged => ((readLen_ok h).mp hjudged).2)
    (fun hwidth hallowed => (readLen_ok h).mpr ⟨hwidth, hallowed⟩)

def vec (cap : Option ℕ) (c : Wire α) (h : 0 < c.width) : Wire (List α) :=
  sequence cap (fun _ _ => .ok ()) c h

end Sequences

def ascending {α κ : Type} [LinearOrder κ] (key : α → κ) (last : Option α) (v : α) :
    Except DecodeError Unit :=
  match last with
  | none => .ok ()
  | some last => if key v ≤ key last then .error .unsortedKeys else .ok ()

def copied (n : ℕ) : Wire Bytes :=
  (Codec.raw n (short n)).via
    (fun bytes => if h : bytes.length = n then .ok ⟨bytes, h⟩ else .error .unrepresentable)
    (fun raw => .ok raw.1) (by
      rintro ⟨raw, rfl⟩ bytes
      constructor
      · intro h
        cases h
        exact dif_pos rfl
      · intro h
        split at h
        · exact congrArg Except.ok (congrArg Subtype.val (Except.ok.inj h)).symm
        · cases h)

theorem copied_length {n room : ℕ} {bytes written : Bytes}
    (h : (copied n).encode room bytes = .ok written) : bytes.length = n := by
  obtain ⟨raw, hraw, -⟩ := bind_ok.mp h
  dsimp only at hraw
  split at hraw
  · assumption
  · cases hraw

def bytes (cap : Option ℕ) : Wire Bytes :=
  Codec.sized lengthField (readLen 1 cap) (Within cap) (fun n => nested (copied n)) List.length
    (by
      intro n room vs bytes hwrite
      cases room with
      | zero => cases hwrite
      | succ room => exact copied_length hwrite)
    (fun _ => trivial) (fun hjudged => ((readLen_ok Nat.one_pos).mp hjudged).2)
    (fun hwidth hallowed => (readLen_ok Nat.one_pos).mpr ⟨by rw [mul_one]; exact hwidth, hallowed⟩)

def utf8 (text : String) : Bytes := text.toByteArray.data.toList

theorem utf8_inj {a b : String} (h : utf8 a = utf8 b) : a = b := by
  apply String.toByteArray_inj.mp
  apply ByteArray.ext
  exact Array.toList_inj.mp h

def fromUtf8 (bytes : Bytes) : Except DecodeError String :=
  match String.fromUTF8? ⟨bytes.toArray⟩ with
  | some text => .ok text
  | none => .error .invalidUtf8

theorem fromUtf8_ok {bytes : Bytes} {text : String} :
    fromUtf8 bytes = .ok text ↔ utf8 text = bytes := by
  rw [fromUtf8, String.fromUTF8?]
  constructor
  · intro h
    split at h
    · rename_i hvalid
      split at hvalid
      · cases hvalid
        cases h
        rfl
      · cases hvalid
    · cases h
  · rintro rfl
    have hvalid : (ByteArray.mk (utf8 text).toArray).IsValidUTF8 := text.isValidUTF8
    rw [dif_pos hvalid]
    rfl

def string (cap : Option ℕ) : Wire String :=
  (Codec.sized lengthField (readLen 1 cap) (Within cap) copied List.length copied_length
    (fun _ => trivial) (fun hjudged => ((readLen_ok Nat.one_pos).mp hjudged).2)
    (fun hwidth hallowed => (readLen_ok Nat.one_pos).mpr
      ⟨by rw [mul_one]; exact hwidth, hallowed⟩)).via
    (fun text => .ok (utf8 text)) fromUtf8 (by
      intro bytes text
      rw [fromUtf8_ok, Except.ok.injEq])

def enum {α : Type} (tagOf : α → UInt8) (arms : List (Codec.Arm EncodeError DecodeError tagOf))
    (width : ℕ) (hwidth : ∀ arm ∈ arms, width ≤ 1 + arm.codec.width) : Wire α :=
  Codec.enum byte arms .unrepresentable .invalidDiscriminant width (fun _ _ _ => trivial) hwidth

section Enums

variable {α β : Type} {tagOf : α → UInt8}

/-- The variant `make` makes of its fields. That `view` recovers them is checked by cases. -/
def variant (tag : UInt8) (c : Wire β) (make : β → α) (view : α → Option β)
    (hview : ∀ v b, view v = some b ↔ make b = v := by intro v b; cases v <;> simp [eq_comm])
    (htag : ∀ b, tagOf (make b) = tag := by exact fun _ => rfl) :
    Codec.Arm EncodeError DecodeError tagOf :=
  Codec.variant tag .unrepresentable c make view hview htag

end Enums

def option {α : Type} (c : Wire α) : Wire (Option α) :=
  enum (fun v => if v.isSome then 1 else 0)
    [variant 0 Codec.empty (fun _ => none) (fun v => if v.isSome then none else some ()),
    variant 1 (nested c) some id]
    1 (fun _ _ => Nat.le_add_right 1 _)

section Whole

variable {α : Type}

def toVecWithDepth (c : Wire α) (v : α) (maxDepth : ℕ) : Except EncodeError Bytes :=
  c.encode maxDepth v

def fromSliceWithDepth (c : Wire α) (bytes : Bytes) (maxDepth : ℕ) : Except DecodeError α := do
  let (v, rest) ← c.decode maxDepth bytes
  if 0 < rest.length then .error (.trailingBytes rest.length) else .ok v

theorem fromSliceWithDepth_ok {c : Wire α} {bytes : Bytes} {maxDepth : ℕ} {v : α} :
    fromSliceWithDepth c bytes maxDepth = .ok v ↔
      c.valid v ∧ toVecWithDepth c v maxDepth = .ok bytes := by
  constructor
  · intro h
    obtain ⟨⟨v', rest⟩, hread, h⟩ := bind_ok.mp h
    dsimp only at h
    split at h
    · cases h
    rename_i hrest
    cases h
    have hempty : rest = [] := by
      rw [length_pos_iff, not_not] at hrest
      exact hrest
    obtain ⟨hvalid, written, hwritten, rfl⟩ := c.sound hread
    rw [hempty, append_nil]
    exact ⟨hvalid, hwritten⟩
  · rintro ⟨hvalid, hwritten⟩
    have hread := c.complete [] hvalid hwritten
    rw [append_nil] at hread
    exact bind_ok.mpr ⟨(v, []), hread, rfl⟩

end Whole

end HyperscaleVm.Hbor

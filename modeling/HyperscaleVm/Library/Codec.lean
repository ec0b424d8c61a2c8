import HyperscaleVm.Library.Check
import HyperscaleVm.Library.LittleEndian

/-!
# Canonical codecs

A codec writes a value as bytes and reads one off the front of an input, with room for so
many levels of nesting. Every combinator builds the laws with the codec, so one put
together from them is canonical by construction.
-/

namespace HyperscaleVm.Library
open List

structure Codec (ε δ α : Type) where
  width : ℕ
  /-- What reading checks of a value beyond its being written at all. -/
  valid : α → Prop
  encode : ℕ → α → Except ε Bytes
  decode : ℕ → Bytes → Except δ (α × Bytes)
  sound : ∀ {room input v rest}, decode room input = .ok (v, rest) →
    valid v ∧ ∃ bytes, encode room v = .ok bytes ∧ input = bytes ++ rest
  complete : ∀ {room v bytes} (rest : Bytes), valid v → encode room v = .ok bytes →
    decode room (bytes ++ rest) = .ok (v, rest)
  separates : ∀ {room v v' bytes bytes' rest rest'}, encode room v = .ok bytes →
    encode room v' = .ok bytes' → bytes ++ rest = bytes' ++ rest' → v = v' ∧ rest = rest'
  wide : ∀ {room v bytes}, encode room v = .ok bytes → width ≤ bytes.length

namespace Codec

variable {ε δ α β : Type} {room : ℕ} {v : α}

theorem joined_ok {x y : Except ε Bytes} {bytes : Bytes} :
    (do let front ← x; let back ← y; .ok (front ++ back)) = .ok bytes ↔
      ∃ front back, x = .ok front ∧ y = .ok back ∧ front ++ back = bytes := by
  simp only [bind_ok, Except.ok.injEq, exists_and_left]

theorem encode_inj (c : Codec ε δ α) {v' : α} {bytes : Bytes}
    (h : c.encode room v = .ok bytes) (h' : c.encode room v' = .ok bytes) : v = v' := by
  have hsame : bytes ++ [] = bytes ++ [] := rfl
  exact (c.separates h h' hsame).1

def readsBack (c : Codec ε δ α) (room : ℕ) (v : α) : Bool :=
  match c.encode room v with
  | .ok bytes => passes (c.decode room bytes) fun _ => true
  | .error _ => false

theorem valid_of_readsBack {c : Codec ε δ α} (h : c.readsBack room v = true) :
    c.valid v ∧ ∃ bytes, c.encode room v = .ok bytes := by
  unfold readsBack at h
  cases hwrite : c.encode room v with
  | error refusal =>
    rw [hwrite] at h
    cases h
  | ok bytes =>
    rw [hwrite] at h
    obtain ⟨⟨v', rest⟩, hread, -⟩ := passes_iff.mp h
    obtain ⟨hvalid, bytes', hwrite', hsplit⟩ := c.sound hread
    have hsame : v = v' := (c.separates hwrite hwrite' ((append_nil _).trans hsplit)).1
    exact ⟨hsame ▸ hvalid, bytes, rfl⟩

def raw (n : ℕ) (short : ℕ → δ) : Codec ε δ { bytes : Bytes // bytes.length = n } where
  width := n
  valid _ := True
  encode _ v := .ok v.1
  decode _ input :=
    if h : n ≤ input.length then
      .ok (⟨input.take n, length_take_of_le h⟩, input.drop n)
    else .error (short input.length)
  sound := by
    intro room input v rest h
    split at h
    · cases h
      exact ⟨trivial, _, rfl, (take_append_drop n input).symm⟩
    · cases h
  complete := by
    rintro room ⟨bytes, rfl⟩ _ rest - h
    cases h
    have hle : bytes.length ≤ (bytes ++ rest).length := by simp
    simp only [dif_pos hle, take_left', drop_left']
  separates := by
    rintro room ⟨bytes, rfl⟩ ⟨bytes', h⟩ _ _ rest rest' h₁ h₂ heq
    cases h₁
    cases h₂
    obtain ⟨hbytes, hrest⟩ := append_inj heq h.symm
    exact ⟨Subtype.ext hbytes, hrest⟩
  wide := by
    rintro room ⟨bytes, rfl⟩ _ h
    cases h
    exact le_rfl

def empty : Codec ε δ Unit where
  width := 0
  valid _ := True
  encode _ _ := .ok []
  decode _ input := .ok ((), input)
  sound := by
    intro room input v rest h
    cases h
    exact ⟨trivial, [], rfl, rfl⟩
  complete := by
    intro room v bytes rest _ h
    cases h
    rfl
  separates := by
    intro room v v' bytes bytes' rest rest' h h' heq
    cases h
    cases h'
    exact ⟨rfl, heq⟩
  wide := by
    intro room v bytes h
    exact Nat.zero_le _

/-- The values `view` writes as `α`s and `build` makes of them. -/
def via (c : Codec ε δ α) (view : β → Except ε α) (build : α → Except δ β)
    (h : ∀ a b, build a = .ok b ↔ view b = .ok a) : Codec ε δ β where
  width := c.width
  valid b := ∀ a, view b = .ok a → c.valid a
  encode room b := view b >>= c.encode room
  decode room input := do
    let (a, rest) ← c.decode room input
    let b ← build a
    .ok (b, rest)
  sound := by
    intro room input b rest hread
    obtain ⟨⟨a, rest'⟩, ha, b', hb, hread⟩ := binds_ok.mp hread
    cases hread
    obtain ⟨hvalid, bytes, hbytes, hinput⟩ := c.sound ha
    have hview := (h a b).mp hb
    refine ⟨fun a' ha' => ?_, bytes, bind_ok.mpr ⟨a, hview, hbytes⟩, hinput⟩
    cases hview.symm.trans ha'
    exact hvalid
  complete := by
    intro room b bytes rest hvalid hwrite
    obtain ⟨a, hview, hbytes⟩ := bind_ok.mp hwrite
    exact bind_ok.mpr ⟨(a, rest), c.complete rest (hvalid a hview) hbytes,
      bind_ok.mpr ⟨b, (h a b).mpr hview, rfl⟩⟩
  separates := by
    intro room b b' bytes bytes' rest rest' hwrite hwrite' heq
    obtain ⟨a, hview, hbytes⟩ := bind_ok.mp hwrite
    obtain ⟨a', hview', hbytes'⟩ := bind_ok.mp hwrite'
    obtain ⟨rfl, hrest⟩ := c.separates hbytes hbytes' heq
    have hb := (h a b).mpr hview
    rw [(h a b').mpr hview'] at hb
    exact ⟨(Except.ok.inj hb).symm, hrest⟩
  wide := by
    intro room b bytes hwrite
    obtain ⟨a, -, hbytes⟩ := bind_ok.mp hwrite
    exact c.wide hbytes

def iso (c : Codec ε δ α) (e : β ≃ α) : Codec ε δ β :=
  c.via (fun b => .ok (e b)) (fun a => .ok (e.symm a)) fun a b => by
    rw [Except.ok.injEq, Except.ok.injEq, Equiv.symm_apply_eq, eq_comm]

def check (c : Codec ε δ α) (judge : α → Except δ Unit) : Codec ε δ α where
  width := c.width
  valid v := c.valid v ∧ judge v = .ok ()
  encode := c.encode
  decode room input := do
    let (v, rest) ← c.decode room input
    judge v
    .ok (v, rest)
  sound := by
    intro room input v rest hread
    obtain ⟨⟨v', rest'⟩, hv, hread⟩ := bind_ok.mp hread
    obtain ⟨hjudge, hread⟩ := seq_ok.mp hread
    cases hread
    obtain ⟨hvalid, hwritten⟩ := c.sound hv
    exact ⟨⟨hvalid, hjudge⟩, hwritten⟩
  complete := by
    intro room v bytes rest hvalid hwrite
    exact bind_ok.mpr ⟨(v, rest), c.complete rest hvalid.1 hwrite, seq_ok.mpr ⟨hvalid.2, rfl⟩⟩
  separates := c.separates
  wide := c.wide

def seq (a : Codec ε δ α) (b : Codec ε δ β) : Codec ε δ (α × β) where
  width := a.width + b.width
  valid v := a.valid v.1 ∧ b.valid v.2
  encode room v := do
    let front ← a.encode room v.1
    let back ← b.encode room v.2
    .ok (front ++ back)
  decode room input := do
    let (x, input) ← a.decode room input
    let (y, input) ← b.decode room input
    .ok ((x, y), input)
  sound := by
    intro room input v rest hread
    obtain ⟨⟨x, input'⟩, hx, ⟨y, input''⟩, hy, hread⟩ := binds_ok.mp hread
    cases hread
    obtain ⟨hxvalid, front, hfront, rfl⟩ := a.sound hx
    obtain ⟨hyvalid, back, hback, rfl⟩ := b.sound hy
    exact ⟨⟨hxvalid, hyvalid⟩, front ++ back,
      joined_ok.mpr ⟨_, _, hfront, hback, rfl⟩, (append_assoc _ _ _).symm⟩
  complete := by
    intro room v bytes rest hvalid hwrite
    obtain ⟨front, back, hfront, hback, rfl⟩ := joined_ok.mp hwrite
    rw [append_assoc]
    exact bind_ok.mpr ⟨_, a.complete (back ++ rest) hvalid.1 hfront,
      bind_ok.mpr ⟨_, b.complete rest hvalid.2 hback, rfl⟩⟩
  separates := by
    intro room v v' bytes bytes' rest rest' hwrite hwrite' heq
    obtain ⟨front, back, hfront, hback, rfl⟩ := joined_ok.mp hwrite
    obtain ⟨front', back', hfront', hback', rfl⟩ := joined_ok.mp hwrite'
    rw [append_assoc, append_assoc] at heq
    obtain ⟨hx, heq⟩ := a.separates hfront hfront' heq
    obtain ⟨hy, hrest⟩ := b.separates hback hback' heq
    exact ⟨Prod.ext hx hy, hrest⟩
  wide := by
    intro room v bytes hwrite
    obtain ⟨front, back, hfront, hback, rfl⟩ := joined_ok.mp hwrite
    have hx := a.wide hfront
    have hy := b.wide hback
    rw [length_append]
    omega

def descend (refused : ε) (refused' : δ) (c : Codec ε δ α) : Codec ε δ α where
  width := c.width
  valid := c.valid
  encode room v :=
    match room with
    | 0 => .error refused
    | room + 1 => c.encode room v
  decode room input :=
    match room with
    | 0 => .error refused'
    | room + 1 => c.decode room input
  sound := by
    intro room input v rest hread
    cases room with
    | zero => cases hread
    | succ room => exact c.sound hread
  complete := by
    intro room v bytes rest hvalid hwrite
    cases room with
    | zero => cases hwrite
    | succ room => exact c.complete rest hvalid hwrite
  separates := by
    intro room v v' bytes bytes' rest rest' hwrite hwrite' heq
    cases room with
    | zero => cases hwrite
    | succ room => exact c.separates hwrite hwrite' heq
  wide := by
    intro room v bytes hwrite
    cases room with
    | zero => cases hwrite
    | succ room => exact c.wide hwrite

section Runs

variable (c : Codec ε δ α) (follows : Option α → α → Except δ Unit)

def encodeAll (room : ℕ) : List α → Except ε Bytes
  | [] => .ok []
  | v :: vs => do
    let front ← c.encode room v
    let back ← encodeAll room vs
    .ok (front ++ back)

def decodeMany (room : ℕ) : ℕ → Option α → Bytes → Except δ (List α × Bytes)
  | 0, _, input => .ok ([], input)
  | n + 1, last, input => do
    let (v, input) ← c.decode room input
    follows last v
    let (vs, input) ← decodeMany room n (some v) input
    .ok (v :: vs, input)

def Following : Option α → List α → Prop
  | _, [] => True
  | last, v :: vs => follows last v = .ok () ∧ Following (some v) vs

variable {c follows} {room : ℕ} {last : Option α} {rest : Bytes} {vs : List α}

theorem decodeMany_sound {n : ℕ} {input : Bytes}
    (h : c.decodeMany follows room n last input = .ok (vs, rest)) :
    vs.length = n ∧ Following follows last vs ∧ (∀ v ∈ vs, c.valid v) ∧
      ∃ bytes, c.encodeAll room vs = .ok bytes ∧ input = bytes ++ rest := by
  induction n generalizing last input vs with
  | zero =>
    cases h
    exact ⟨rfl, trivial, fun _ hv => absurd hv not_mem_nil, [], rfl, rfl⟩
  | succ n ih =>
    obtain ⟨⟨v, input'⟩, hv, h⟩ := bind_ok.mp h
    obtain ⟨hfollows, h⟩ := seq_ok.mp h
    obtain ⟨⟨vs', input''⟩, hvs, h⟩ := bind_ok.mp h
    cases h
    obtain ⟨hvalid, front, hfront, rfl⟩ := c.sound hv
    obtain ⟨hlength, hfollowing, hvalids, back, hback, rfl⟩ := ih hvs
    refine ⟨by rw [length_cons, hlength], ⟨hfollows, hfollowing⟩, ?_, front ++ back, ?_, ?_⟩
    · intro w hw
      rcases mem_cons.mp hw with rfl | hw
      · exact hvalid
      · exact hvalids w hw
    · exact joined_ok.mpr ⟨_, _, hfront, hback, rfl⟩
    · exact (append_assoc _ _ _).symm

variable {bytes : Bytes}

theorem decodeMany_complete (rest : Bytes)
    (hfollowing : Following follows last vs) (hvalid : ∀ v ∈ vs, c.valid v)
    (h : c.encodeAll room vs = .ok bytes) :
    c.decodeMany follows room vs.length last (bytes ++ rest) = .ok (vs, rest) := by
  induction vs generalizing bytes last with
  | nil =>
    cases h
    rfl
  | cons v vs ih =>
    obtain ⟨front, back, hfront, hback, rfl⟩ := joined_ok.mp h
    rw [append_assoc]
    exact bind_ok.mpr ⟨_, c.complete (back ++ rest) (hvalid v mem_cons_self) hfront,
      seq_ok.mpr ⟨hfollowing.1, bind_ok.mpr ⟨_, ih hfollowing.2
        (fun w hw => hvalid w (mem_cons_of_mem _ hw)) hback, rfl⟩⟩⟩

theorem encodeAll_separates {vs' : List α} {bytes' rest' : Bytes}
    (hlength : vs.length = vs'.length) (h : c.encodeAll room vs = .ok bytes)
    (h' : c.encodeAll room vs' = .ok bytes') (heq : bytes ++ rest = bytes' ++ rest') :
    vs = vs' ∧ rest = rest' := by
  induction vs generalizing vs' bytes bytes' with
  | nil =>
    cases vs' with
    | nil =>
      cases h
      cases h'
      exact ⟨rfl, heq⟩
    | cons v' vs' => cases hlength
  | cons v vs ih =>
    cases vs' with
    | nil => cases hlength
    | cons v' vs' =>
      obtain ⟨front, back, hfront, hback, rfl⟩ := joined_ok.mp h
      obtain ⟨front', back', hfront', hback', rfl⟩ := joined_ok.mp h'
      rw [append_assoc, append_assoc] at heq
      obtain ⟨rfl, heq⟩ := c.separates hfront hfront' heq
      obtain ⟨rfl, hrest⟩ := ih (by simpa using hlength) hback hback' heq
      exact ⟨rfl, hrest⟩

theorem encodeAll_wide (h : c.encodeAll room vs = .ok bytes) :
    vs.length * c.width ≤ bytes.length := by
  induction vs generalizing bytes with
  | nil => simp
  | cons v vs ih =>
    obtain ⟨front, back, hfront, hback, rfl⟩ := joined_ok.mp h
    have hhead := c.wide hfront
    have htail := ih hback
    rw [length_cons, length_append, Nat.succ_mul]
    omega

end Runs

def many (c : Codec ε δ α) (follows : Option α → α → Except δ Unit) (uncounted : ε) (n : ℕ) :
    Codec ε δ (List α) where
  width := n * c.width
  valid vs := Following follows none vs ∧ ∀ v ∈ vs, c.valid v
  encode room vs := if vs.length = n then c.encodeAll room vs else .error uncounted
  decode room input := c.decodeMany follows room n none input
  sound := by
    intro room input vs rest hread
    obtain ⟨hlength, hfollowing, hvalid, bytes, hbytes, hinput⟩ := decodeMany_sound hread
    exact ⟨⟨hfollowing, hvalid⟩, bytes, by rw [if_pos hlength, hbytes], hinput⟩
  complete := by
    intro room vs bytes rest hvalid hwrite
    split at hwrite
    · rename_i hlength
      rw [← hlength]
      exact decodeMany_complete rest hvalid.1 hvalid.2 hwrite
    · cases hwrite
  separates := by
    intro room vs vs' bytes bytes' rest rest' hwrite hwrite' heq
    split at hwrite
    · rename_i hlength
      split at hwrite'
      · rename_i hlength'
        exact encodeAll_separates (hlength.trans hlength'.symm) hwrite hwrite' heq
      · cases hwrite'
    · cases hwrite
  wide := by
    intro room vs bytes hwrite
    split at hwrite
    · rename_i hlength
      rw [← hlength]
      exact encodeAll_wide hwrite
    · cases hwrite

def sized (len : Codec ε δ ℕ) (judge : ℕ → ℕ → Except δ Unit) (allowed : ℕ → Prop)
    (body : ℕ → Codec ε δ α) (count : α → ℕ)
    (hcount : ∀ {n room v bytes}, (body n).encode room v = .ok bytes → count v = n)
    (hlen : ∀ n, len.valid n) (hjudge : ∀ {n remaining}, judge n remaining = .ok () → allowed n)
    (hallowed : ∀ {n remaining}, (body n).width ≤ remaining → allowed n →
      judge n remaining = .ok ()) : Codec ε δ α where
  width := len.width
  valid v := allowed (count v) ∧ (body (count v)).valid v
  encode room v := do
    let front ← len.encode room (count v)
    let back ← (body (count v)).encode room v
    .ok (front ++ back)
  decode room input := do
    let (n, input) ← len.decode room input
    judge n input.length
    (body n).decode room input
  sound := by
    intro room input v rest hread
    obtain ⟨⟨n, input'⟩, hn, hrest⟩ := bind_ok.mp hread
    obtain ⟨hjudged, hbody⟩ := seq_ok.mp hrest
    obtain ⟨-, front, hfront, rfl⟩ := len.sound hn
    obtain ⟨hvalid, back, hback, rfl⟩ := (body n).sound hbody
    cases hcount hback
    exact ⟨⟨hjudge hjudged, hvalid⟩, front ++ back,
      joined_ok.mpr ⟨_, _, hfront, hback, rfl⟩, (append_assoc _ _ _).symm⟩
  complete := by
    intro room v bytes rest hvalid hwrite
    obtain ⟨front, back, hfront, hback, rfl⟩ := joined_ok.mp hwrite
    rw [append_assoc]
    have hwide := (body (count v)).wide hback
    refine bind_ok.mpr ⟨_, len.complete (back ++ rest) (hlen _) hfront, seq_ok.mpr
      ⟨hallowed ?_ hvalid.1, (body (count v)).complete rest hvalid.2 hback⟩⟩
    rw [length_append]
    omega
  separates := by
    intro room v v' bytes bytes' rest rest' hwrite hwrite' heq
    obtain ⟨front, back, hfront, hback, rfl⟩ := joined_ok.mp hwrite
    obtain ⟨front', back', hfront', hback', rfl⟩ := joined_ok.mp hwrite'
    rw [append_assoc, append_assoc] at heq
    obtain ⟨hn, heq⟩ := len.separates hfront hfront' heq
    rw [← hn] at hback'
    exact (body (count v)).separates hback hback' heq
  wide := by
    intro room v bytes hwrite
    obtain ⟨front, back, hfront, hback, rfl⟩ := joined_ok.mp hwrite
    have hx := len.wide hfront
    rw [length_append]
    omega

/-- One variant: its tag and a codec that writes values of that tag alone. -/
structure Arm (ε δ : Type) {α τ : Type} (tagOf : α → τ) where
  tag : τ
  codec : Codec ε δ α
  own : ∀ {room v bytes}, codec.encode room v = .ok bytes → tagOf v = tag

def variant {τ : Type} {tagOf : α → τ} (tag : τ) (other : ε) (c : Codec ε δ β) (make : β → α)
    (view : α → Option β) (hview : ∀ v b, view v = some b ↔ make b = v)
    (htag : ∀ b, tagOf (make b) = tag) : Arm ε δ tagOf where
  tag := tag
  codec := c.via (fun v => (view v).elim (.error other) .ok) (fun b => .ok (make b)) (by
    intro b v
    cases hv : view v with
    | none =>
      have hnot : make b ≠ v := fun h => by simp [(hview v b).mpr h] at hv
      simpa using hnot
    | some b' =>
      have hmade := (hview v b').mp hv
      constructor
      · intro h
        have hb := (hview v b).mpr (Except.ok.inj h)
        rw [hv] at hb
        rw [Option.some.inj hb]
        rfl
      · intro h
        rw [← Except.ok.inj h, hmade])
  own := by
    intro room v bytes h
    obtain ⟨b, hb, -⟩ := bind_ok.mp h
    cases hv : view v with
    | none => simp [hv] at hb
    | some b' => rw [← (hview v b').mp hv, htag]

theorem variant_valid {τ : Type} {tagOf : α → τ} {tag : τ} {other : ε} {c : Codec ε δ β}
    {make : β → α} {view : α → Option β} {hview : ∀ v b, view v = some b ↔ make b = v}
    {htag : ∀ b, tagOf (make b) = tag} :
    (variant tag other c make view hview htag).codec.valid v ↔ ∀ b, make b = v → c.valid b := by
  constructor
  · rintro h b rfl
    apply h b
    dsimp only
    rw [(hview (make b) b).mpr rfl]
    rfl
  · intro h b hb
    dsimp only at hb
    cases hv : view v with
    | none => simp [hv] at hb
    | some b' =>
      rw [hv] at hb
      cases hb
      exact h b ((hview v b).mp hv)

section Enum

variable {τ : Type} [DecidableEq τ] (tag : Codec ε δ τ) {tagOf : α → τ}
  (arms : List (Arm ε δ tagOf))

def armOf (t : τ) : Option (Arm ε δ tagOf) := arms.find? (·.tag = t)

variable {arms} in
theorem armOf_some {t : τ} {arm : Arm ε δ tagOf} (h : armOf arms t = some arm) :
    arm ∈ arms ∧ arm.tag = t :=
  ⟨mem_of_find?_eq_some h, by simpa using find?_some h⟩

def enum (unwritten : ε) (unknown : τ → δ) (width : ℕ) (htag : ∀ t, tag.valid t)
    (hwidth : ∀ arm ∈ arms, width ≤ tag.width + arm.codec.width) : Codec ε δ α where
  width := width
  valid v := ∀ arm, armOf arms (tagOf v) = some arm → arm.codec.valid v
  encode room v :=
    match armOf arms (tagOf v) with
    | none => .error unwritten
    | some arm => do
      let front ← tag.encode room (tagOf v)
      let back ← arm.codec.encode room v
      .ok (front ++ back)
  decode room input := do
    let (t, input) ← tag.decode room input
    match armOf arms t with
    | none => .error (unknown t)
    | some arm => arm.codec.decode room input
  sound := by
    intro room input v rest hread
    obtain ⟨⟨t, input'⟩, ht, hbody⟩ := bind_ok.mp hread
    obtain ⟨-, front, hfront, rfl⟩ := tag.sound ht
    dsimp only at hbody
    split at hbody
    · cases hbody
    rename_i arm harm
    obtain ⟨hvalid, back, hback, rfl⟩ := arm.codec.sound hbody
    have htagOf : tagOf v = t := (arm.own hback).trans (armOf_some harm).2
    subst htagOf
    refine ⟨fun arm' harm' => ?_, front ++ back, ?_, (append_assoc _ _ _).symm⟩
    · cases harm.symm.trans harm'
      exact hvalid
    · rw [harm]
      exact joined_ok.mpr ⟨_, _, hfront, hback, rfl⟩
  complete := by
    intro room v bytes rest hvalid hwrite
    split at hwrite
    · cases hwrite
    rename_i arm harm
    obtain ⟨front, back, hfront, hback, rfl⟩ := joined_ok.mp hwrite
    rw [append_assoc]
    refine bind_ok.mpr ⟨_, tag.complete (back ++ rest) (htag _) hfront, ?_⟩
    dsimp only
    rw [harm]
    exact arm.codec.complete rest (hvalid arm harm) hback
  separates := by
    intro room v v' bytes bytes' rest rest' hwrite hwrite' heq
    split at hwrite
    · cases hwrite
    rename_i arm harm
    split at hwrite'
    · cases hwrite'
    rename_i arm' harm'
    obtain ⟨front, back, hfront, hback, rfl⟩ := joined_ok.mp hwrite
    obtain ⟨front', back', hfront', hback', rfl⟩ := joined_ok.mp hwrite'
    rw [append_assoc, append_assoc] at heq
    obtain ⟨ht, heq⟩ := tag.separates hfront hfront' heq
    rw [← ht, harm] at harm'
    cases harm'
    exact arm.codec.separates hback hback' heq
  wide := by
    intro room v bytes hwrite
    split at hwrite
    · cases hwrite
    rename_i arm harm
    obtain ⟨front, back, hfront, hback, rfl⟩ := joined_ok.mp hwrite
    have hx := tag.wide hfront
    have hy := arm.codec.wide hback
    have hw := hwidth arm (armOf_some harm).1
    rw [length_append]
    omega

end Enum

end Codec

end HyperscaleVm.Library

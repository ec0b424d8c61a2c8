import HyperscaleVm.Library.Codec

/-!
# Codecs of recursive types
-/

namespace HyperscaleVm.Library.Codec

variable {ε δ α β : Type} {room : ℕ}

def Same (room : ℕ) (c c' : Codec ε δ α) : Prop :=
  c.encode room = c'.encode room ∧ c.decode room = c'.decode room

variable {c : Codec ε δ α}

theorem Same.rfl : Same room c c := ⟨Eq.refl _, Eq.refl _⟩

variable {c' : Codec ε δ α}

theorem Same.trans {c'' : Codec ε δ α} (h : Same room c c') (h' : Same room c' c'') :
    Same room c c'' :=
  ⟨h.1.trans h'.1, h.2.trans h'.2⟩

theorem Same.via (h : Same room c c') {view : β → Except ε α}
    {build : α → Except δ β} {hview : ∀ a b, build a = .ok b ↔ view b = .ok a} :
    Same room (c.via view build hview) (c'.via view build hview) := by
  constructor
  · funext b
    exact congrArg (view b >>= ·) h.1
  · funext input
    simp only [Codec.via, h.2]

theorem Same.iso (h : Same room c c') {e : β ≃ α} : Same room (c.iso e) (c'.iso e) :=
  h.via

theorem Same.check (h : Same room c c') {judge : α → Except δ Unit} :
    Same room (c.check judge) (c'.check judge) := by
  refine ⟨h.1, ?_⟩
  funext input
  simp only [Codec.check, h.2]

theorem Same.seq {a a' : Codec ε δ α} {b b' : Codec ε δ β} (ha : Same room a a')
    (hb : Same room b b') : Same room (a.seq b) (a'.seq b') := by
  constructor
  · funext v
    simp only [Codec.seq, ha.1, hb.1]
  · funext input
    simp only [Codec.seq, ha.2, hb.2]

theorem Same.descend (h : ∀ below < room, Same below c c') {refused : ε}
    {refused' : δ} : Same room (c.descend refused refused') (c'.descend refused refused') := by
  cases room with
  | zero => exact ⟨Eq.refl _, Eq.refl _⟩
  | succ room => exact h room (Nat.lt_succ_self room)

theorem Same.many (h : Same room c c')
    {follows : Option α → α → Except δ Unit} {uncounted : ε} {n : ℕ} :
    Same room (c.many follows uncounted n) (c'.many follows uncounted n) := by
  have hencode : ∀ vs, c.encodeAll room vs = c'.encodeAll room vs := by
    intro vs
    induction vs with
    | nil => exact Eq.refl _
    | cons v vs ih => simp only [encodeAll, h.1, ih]
  have hdecode : ∀ n last input,
      c.decodeMany follows room n last input = c'.decodeMany follows room n last input := by
    intro n
    induction n with
    | zero => exact fun _ _ => Eq.refl _
    | succ n ih =>
      intro last input
      simp only [decodeMany, h.2, ih]
  constructor
  · funext vs
    simp only [Codec.many, hencode]
  · funext input
    exact hdecode n none input

section Sized

variable {len : Codec ε δ ℕ} {judge judge' : ℕ → ℕ → Except δ Unit} {allowed : ℕ → Prop}
  {body body' : ℕ → Codec ε δ α} {count : α → ℕ}

theorem Same.sized {hcount hcount' hlen hlen' hjudge hjudge' hallowed hallowed'}
    (hsame : judge = judge') (h : ∀ n, Same room (body n) (body' n)) :
    Same room (Codec.sized len judge allowed body count hcount hlen hjudge hallowed)
      (Codec.sized len judge' allowed body' count hcount' hlen' hjudge' hallowed') := by
  constructor
  · funext v
    simp only [Codec.sized, (h _).1]
  · funext input
    simp only [Codec.sized, (h _).2, hsame]

end Sized

section Enum

variable {τ : Type} {tagOf : α → τ}

def Arm.Same (room : ℕ) (arm arm' : Arm ε δ tagOf) : Prop :=
  arm.tag = arm'.tag ∧ Codec.Same room arm.codec arm'.codec

theorem Arm.Same.rfl {arm : Arm ε δ tagOf} : arm.Same room arm := ⟨Eq.refl _, Codec.Same.rfl⟩

theorem Same.variant {c c' : Codec ε δ β} (h : Same room c c') {tag : τ} {other : ε}
    {make : β → α} {view : α → Option β} {hview : ∀ v b, view v = some b ↔ make b = v}
    {htag : ∀ b, tagOf (make b) = tag} :
    Arm.Same room (Codec.variant tag other c make view hview htag)
      (Codec.variant tag other c' make view hview htag) := by
  refine ⟨Eq.refl _, ?_⟩
  dsimp only [Codec.variant]
  exact h.via

variable [DecidableEq τ] {tag : Codec ε δ τ} {arms arms' : List (Arm ε δ tagOf)}

theorem armOf_same (h : List.Forall₂ (Arm.Same room) arms arms') (t : τ) :
    Option.Rel (Arm.Same room) (armOf arms t) (armOf arms' t) := by
  induction h with
  | nil => exact .none
  | @cons arm arm' _ _ hhead _ ih =>
    by_cases ht : arm.tag = t
    · have ht' : arm'.tag = t := hhead.1.symm.trans ht
      simp only [armOf, List.find?_cons, ht, ht', decide_true]
      exact .some hhead
    · have ht' : arm'.tag ≠ t := fun h' => ht (hhead.1.trans h')
      simp only [armOf, List.find?_cons, ht, ht', decide_false]
      exact ih

theorem Same.enum {unwritten : ε} {unknown : τ → δ} {width width' : ℕ} {htag hwidth hwidth'}
    (h : List.Forall₂ (Arm.Same room) arms arms') :
    Same room (Codec.enum tag arms unwritten unknown width htag hwidth)
      (Codec.enum tag arms' unwritten unknown width' htag hwidth') := by
  constructor
  · funext v
    have harm := armOf_same h (tagOf v)
    simp only [Codec.enum]
    generalize armOf arms (tagOf v) = found at harm
    generalize armOf arms' (tagOf v) = found' at harm
    cases harm with
    | none => exact Eq.refl _
    | some hsame => simp only [hsame.2.1]
  · funext input
    simp only [Codec.enum]
    congr 1
    funext read
    have harm := armOf_same h read.1
    generalize armOf arms read.1 = found at harm
    generalize armOf arms' read.1 = found' at harm
    cases harm with
    | none => exact Eq.refl _
    | some hsame => simp only [hsame.2.2]

end Enum

def never (width : ℕ) (refused : ε) (refused' : δ) : Codec ε δ α where
  width := width
  valid _ := True
  encode _ _ := .error refused
  decode _ _ := .error refused'
  sound h := nomatch h
  complete _ _ h := nomatch h
  separates h := nomatch h
  wide h := nomatch h

section Fix

variable {width : ℕ}

/-- A layer over codecs of one width that reaches the codec it is laid over only further down. -/
structure Layer (ε δ α : Type) (width : ℕ) where
  over_ : (c : Codec ε δ α) → c.width = width → Codec ε δ α
  width_eq : ∀ c h, (over_ c h).width = width
  contractive : ∀ {room c c' h h'}, (∀ below < room, Same below c c') →
    Same room (over_ c h) (over_ c' h')

variable (L : Layer ε δ α width) (refused : ε) (refused' : δ)

def Layer.unrolled : ℕ → { c : Codec ε δ α // c.width = width }
  | 0 => ⟨never width refused refused', rfl⟩
  | n + 1 => ⟨L.over_ (unrolled n).1 (unrolled n).2, L.width_eq _ _⟩

theorem Layer.unrolled_same {room n m : ℕ} (hn : room < n) (hm : room < m) :
    Same room (L.unrolled refused refused' n).1 (L.unrolled refused refused' m).1 := by
  induction room using Nat.strongRecOn generalizing n m with
  | ind room ih =>
    obtain ⟨n, rfl⟩ : ∃ n', n = n' + 1 := ⟨n - 1, by omega⟩
    obtain ⟨m, rfl⟩ : ∃ m', m = m' + 1 := ⟨m - 1, by omega⟩
    apply L.contractive
    intro below hbelow
    exact ih below hbelow (by omega) (by omega)

def Layer.fix : Codec ε δ α where
  width := width
  valid v := ∃ enough, ∀ n, enough ≤ n → (L.unrolled refused refused' n).1.valid v
  encode room := (L.unrolled refused refused' (room + 1)).1.encode room
  decode room := (L.unrolled refused refused' (room + 1)).1.decode room
  sound := by
    intro room input v rest hread
    refine ⟨⟨room + 1, fun n hn => ?_⟩, ((L.unrolled refused refused' (room + 1)).1.sound hread).2⟩
    have hsame := L.unrolled_same refused refused' (Nat.lt_succ_self room) hn
    rw [hsame.2] at hread
    exact ((L.unrolled refused refused' n).1.sound hread).1
  complete := by
    rintro room v bytes rest ⟨enough, hvalid⟩ hwrite
    have hsame := L.unrolled_same refused refused' (Nat.lt_succ_self room)
      (show room < max enough (room + 1) by omega)
    rw [hsame.1] at hwrite
    rw [hsame.2]
    exact (L.unrolled refused refused' _).1.complete rest (hvalid _ (Nat.le_max_left _ _)) hwrite
  separates := (L.unrolled refused refused' _).1.separates
  wide := by
    intro room v bytes hwrite
    have hwide := (L.unrolled refused refused' (room + 1)).1.wide hwrite
    rw [(L.unrolled refused refused' (room + 1)).2] at hwide
    exact hwide

theorem Layer.fix_same {room : ℕ} :
    Same room (L.fix refused refused') (L.over_ (L.fix refused refused') rfl) := by
  have hone : Same room (L.fix refused refused') (L.unrolled refused refused' (room + 1)).1 :=
    ⟨rfl, rfl⟩
  refine hone.trans (L.contractive fun below hbelow => ?_)
  have hsame := L.unrolled_same refused refused' hbelow (Nat.lt_succ_self below)
  exact ⟨hsame.1, hsame.2⟩

end Fix

end HyperscaleVm.Library.Codec

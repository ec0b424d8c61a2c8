import HyperscaleVm.Library.RecursiveCodec

/-!
# The room a value is written in

`Charges` bounds, from a value written with some room, the room it needs: no less than
`lo` and never more than `hi`.
-/

namespace HyperscaleVm.Library

def deepest {α : Type} (measure : α → ℕ) : List α → ℕ
  | [] => 0
  | v :: vs => max (measure v) (deepest measure vs)

variable {α : Type}

theorem deepest_le {measure : α → ℕ} {vs : List α} {bound : ℕ} :
    deepest measure vs ≤ bound ↔ ∀ v ∈ vs, measure v ≤ bound := by
  induction vs with
  | nil => simp [deepest]
  | cons v vs ih => simp [deepest, ih]

theorem le_deepest {measure : α → ℕ} {vs : List α} {v : α} (h : v ∈ vs) :
    measure v ≤ deepest measure vs :=
  deepest_le.mp le_rfl v h

namespace Codec

variable {ε δ α β : Type} {room : ℕ} {lo hi : α → ℕ}

section Written

def Written (c : Codec ε δ α) (v : α) : Prop := ∃ room bytes, c.encode room v = .ok bytes

variable {c : Codec ε δ α}

theorem Written.iso {e : β ≃ α} {v : β} (h : Written (c.iso e) v) : Written c (e v) := by
  obtain ⟨room, bytes, hwrite⟩ := h
  obtain ⟨_, ha, hbytes⟩ := bind_ok.mp hwrite
  cases ha
  exact ⟨room, bytes, hbytes⟩

theorem Written.seq {b : Codec ε δ β} {v : α × β} (h : Written (c.seq b) v) :
    Written c v.1 ∧ Written b v.2 := by
  obtain ⟨room, bytes, hwrite⟩ := h
  obtain ⟨front, hfront, back, hback, -⟩ := binds_ok.mp hwrite
  exact ⟨⟨room, front, hfront⟩, ⟨room, back, hback⟩⟩

variable {v : α}

theorem Written.descend {refused : ε} {refused' : δ}
    (h : Written (c.descend refused refused') v) : Written c v := by
  obtain ⟨room, bytes, hwrite⟩ := h
  cases room with
  | zero => cases hwrite
  | succ room => exact ⟨room, bytes, hwrite⟩

variable {vs : List α}

theorem Written.encodeAll {bytes : Bytes} (h : c.encodeAll room vs = .ok bytes) :
    ∀ v ∈ vs, Written c v := by
  induction vs generalizing bytes with
  | nil =>
    intro v hv
    cases hv
  | cons head vs ih =>
    obtain ⟨front, hfront, back, hback, -⟩ := binds_ok.mp h
    intro v hv
    rcases List.mem_cons.mp hv with rfl | hv
    · exact ⟨room, front, hfront⟩
    · exact ih hback v hv

theorem Written.many {follows : Option α → α → Except δ Unit} {uncounted : ε} {n : ℕ}
    (h : Written (c.many follows uncounted n) vs) : ∀ v ∈ vs, Written c v := by
  obtain ⟨room, bytes, hwrite⟩ := h
  by_cases hlength : vs.length = n
  · exact Written.encodeAll ((if_pos hlength).symm.trans hwrite)
  · cases (if_neg hlength).symm.trans hwrite

theorem Written.sized {len : Codec ε δ ℕ} {judge : ℕ → ℕ → Except δ Unit} {allowed : ℕ → Prop}
    {body : ℕ → Codec ε δ α} {count : α → ℕ} {hcount hlen hjudge hallowed}
    (h : Written (Codec.sized len judge allowed body count hcount hlen hjudge hallowed) v) :
    Written len (count v) ∧ Written (body (count v)) v := by
  obtain ⟨room, bytes, hwrite⟩ := h
  obtain ⟨front, hfront, back, hback, -⟩ := binds_ok.mp hwrite
  exact ⟨⟨room, front, hfront⟩, ⟨room, back, hback⟩⟩

theorem Written.fix {width : ℕ} {L : Layer ε δ α width} {refused : ε} {refused' : δ}
    (h : Written (L.fix refused refused') v) :
    Written (L.over_ (L.fix refused refused') rfl) v := by
  obtain ⟨room, bytes, hwrite⟩ := h
  rw [(L.fix_same refused refused').1] at hwrite
  exact ⟨room, bytes, hwrite⟩

end Written

def Charges (room : ℕ) (c : Codec ε δ α) (lo hi : α → ℕ) : Prop :=
  ∀ v bytes, c.encode room v = .ok bytes →
    lo v ≤ room ∧ ∀ room', hi v ≤ room' → ∃ bytes', c.encode room' v = .ok bytes'

variable {c : Codec ε δ α}

theorem Charges.mono (h : Charges room c lo hi) {lo' hi' : α → ℕ}
    (hlo : ∀ v, lo' v ≤ lo v) (hhi : ∀ v, hi v ≤ hi' v) : Charges room c lo' hi' := by
  intro v bytes hwrite
  obtain ⟨hleast, henough⟩ := h _ _ hwrite
  exact ⟨(hlo v).trans hleast, fun room' hroom => henough room' ((hhi v).trans hroom)⟩

theorem Charges.written (h : ∀ room, Charges room c lo hi) {v : α}
    (hwritten : Written c v) (hroom : hi v ≤ room) : ∃ bytes, c.encode room v = .ok bytes := by
  obtain ⟨room₀, bytes, hwrite⟩ := hwritten
  exact (h room₀ v bytes hwrite).2 room hroom

theorem Charges.flat (h : ∀ room room' v, c.encode room v = c.encode room' v) :
    Charges room c (fun _ => 0) (fun _ => 0) :=
  fun _ _ hwrite => ⟨Nat.zero_le _, fun room' _ => ⟨_, (h room' room _).trans hwrite⟩⟩

theorem Charges.same {c' : Codec ε δ α} (hsame : ∀ room, Same room c c')
    (h : Charges room c' lo hi) : Charges room c lo hi := by
  intro v bytes hwrite
  rw [(hsame room).1] at hwrite
  obtain ⟨hleast, henough⟩ := h _ _ hwrite
  refine ⟨hleast, fun room' hroom => ?_⟩
  rw [(hsame room').1]
  exact henough room' hroom

variable {lo' hi' : β → ℕ} {view : β → Except ε α} {build : α → Except δ β}

theorem Charges.via (h : Charges room c lo hi) {hview : ∀ a b, build a = .ok b ↔ view b = .ok a}
    (hcharge : ∀ b a, view b = .ok a → lo' b ≤ lo a ∧ hi a ≤ hi' b) :
    Charges room (c.via view build hview) lo' hi' := by
  intro b bytes hwrite
  obtain ⟨a, ha, hbytes⟩ := bind_ok.mp hwrite
  obtain ⟨hleast, henough⟩ := h _ _ hbytes
  obtain ⟨hlo, hhi⟩ := hcharge b a ha
  refine ⟨hlo.trans hleast, fun room' hroom => ?_⟩
  obtain ⟨bytes', hbytes'⟩ := henough room' (hhi.trans hroom)
  exact ⟨bytes', bind_ok.mpr ⟨a, ha, hbytes'⟩⟩

variable {e : β ≃ α}

theorem Charges.iso (h : Charges room c lo hi)
    (hcharge : ∀ b, lo' b ≤ lo (e b) ∧ hi (e b) ≤ hi' b) : Charges room (c.iso e) lo' hi' := by
  refine h.via ?_
  intro b a ha
  cases ha
  exact hcharge b

variable {judge : α → Except δ Unit}

theorem Charges.check (h : Charges room c lo hi) :
    Charges room (c.check judge) lo hi :=
  fun _ _ hwrite => h _ _ hwrite

variable {b : Codec ε δ β}

theorem exists_concat {x y : Except ε Bytes} (hx : ∃ front, x = .ok front)
    (hy : ∃ back, y = .ok back) :
    ∃ bytes, (do let front ← x; let back ← y; .ok (front ++ back)) = .ok bytes := by
  obtain ⟨front, hfront⟩ := hx
  obtain ⟨back, hback⟩ := hy
  exact ⟨_, joined_ok.mpr ⟨front, back, hfront, hback, rfl⟩⟩

theorem Charges.seq {a : Codec ε δ α} (ha : Charges room a lo hi) (hb : Charges room b lo' hi') :
    Charges room (a.seq b) (fun v => max (lo v.1) (lo' v.2)) (fun v => max (hi v.1) (hi' v.2)) := by
  intro v bytes hwrite
  obtain ⟨front, hfront, back, hback, hwrite⟩ := binds_ok.mp hwrite
  obtain ⟨hx, henoughx⟩ := ha _ _ hfront
  obtain ⟨hy, henoughy⟩ := hb _ _ hback
  refine ⟨max_le hx hy, fun room' hroom => ?_⟩
  exact exists_concat (henoughx room' ((le_max_left _ _).trans hroom))
    (henoughy room' ((le_max_right _ _).trans hroom))

variable {refused : ε} {refused' : δ}

theorem Charges.descend (h : ∀ below < room, Charges below c lo hi) :
    Charges room (c.descend refused refused') (fun v => lo v + 1) (fun v => hi v + 1) := by
  intro v bytes hwrite
  cases room with
  | zero => cases hwrite
  | succ room =>
    obtain ⟨hleast, henough⟩ := h room (Nat.lt_succ_self room) _ _ hwrite
    refine ⟨Nat.succ_le_succ hleast, fun room' hroom => ?_⟩
    have hpos : 0 < room' := Nat.lt_of_lt_of_le (Nat.succ_pos _) hroom
    obtain ⟨room', rfl⟩ : ∃ below, room' = below + 1 := ⟨room' - 1, by omega⟩
    exact henough room' (Nat.le_of_succ_le_succ hroom)

theorem Charges.encodeAll (h : Charges room c lo hi) {vs : List α} {bytes : Bytes}
    (hwrite : c.encodeAll room vs = .ok bytes) : deepest lo vs ≤ room ∧
      ∀ room', deepest hi vs ≤ room' → ∃ bytes', c.encodeAll room' vs = .ok bytes' := by
  induction vs generalizing bytes with
  | nil => exact ⟨Nat.zero_le _, fun _ _ => ⟨[], rfl⟩⟩
  | cons v vs ih =>
    obtain ⟨front, hfront, back, hback, hwrite⟩ := binds_ok.mp hwrite
    obtain ⟨hhead, henough⟩ := h _ _ hfront
    obtain ⟨htail, henoughs⟩ := ih hback
    refine ⟨max_le hhead htail, fun room' hroom => ?_⟩
    exact exists_concat (henough room' ((le_max_left _ _).trans hroom))
      (henoughs room' ((le_max_right _ _).trans hroom))

variable {follows : Option α → α → Except δ Unit} {uncounted : ε} {n : ℕ}

theorem Charges.many (h : Charges room c lo hi) :
    Charges room (c.many follows uncounted n) (deepest lo) (deepest hi) := by
  intro vs bytes hwrite
  by_cases hlength : vs.length = n
  · have hall : c.encodeAll room vs = .ok bytes := (if_pos hlength).symm.trans hwrite
    obtain ⟨hleast, henough⟩ := h.encodeAll hall
    refine ⟨hleast, fun room' hroom => ?_⟩
    obtain ⟨bytes', hbytes'⟩ := henough room' hroom
    exact ⟨bytes', (if_pos hlength).trans hbytes'⟩
  · have hrefused : (.error uncounted : Except ε Bytes) = .ok bytes :=
      (if_neg hlength).symm.trans hwrite
    cases hrefused

theorem Charges.sized {len : Codec ε δ ℕ} {judge : ℕ → ℕ → Except δ Unit} {allowed : ℕ → Prop}
    {body : ℕ → Codec ε δ α} {count : α → ℕ} {hcount hlen hjudge hallowed}
    (hflat : Charges room len (fun _ => 0) (fun _ => 0)) (h : ∀ n, Charges room (body n) lo hi) :
    Charges room (Codec.sized len judge allowed body count hcount hlen hjudge hallowed) lo hi := by
  intro v bytes hwrite
  obtain ⟨front, hfront, back, hback, hwrite⟩ := binds_ok.mp hwrite
  obtain ⟨hleast, henough⟩ := h _ _ _ hback
  refine ⟨hleast, fun room' hroom => ?_⟩
  exact exists_concat ((hflat _ _ hfront).2 room' (Nat.zero_le _)) (henough room' hroom)

section Enum

variable {τ : Type} {tagOf : α → τ}

theorem Charges.variant {c : Codec ε δ β} {lo' hi' : β → ℕ} (h : Charges room c lo' hi') {tag : τ}
    {other : ε} {make : β → α} {view : α → Option β} {hview : ∀ v b, view v = some b ↔ make b = v}
    {htag : ∀ b, tagOf (make b) = tag} (hcharge : ∀ b, lo (make b) ≤ lo' b ∧ hi' b ≤ hi (make b)) :
    Charges room (Codec.variant tag other c make view hview htag).codec lo hi := by
  dsimp only [Codec.variant]
  refine h.via ?_
  intro v b hb
  cases hv : view v with
  | none => simp [hv] at hb
  | some b' =>
    rw [hv] at hb
    cases hb
    rw [← (hview v b).mp hv]
    exact hcharge b

variable [DecidableEq τ] {tag : Codec ε δ τ} {arms : List (Arm ε δ tagOf)}

theorem Charges.enum {unwritten : ε} {unknown : τ → δ} {width : ℕ} {htag hwidth}
    (hflat : Charges room tag (fun _ => 0) (fun _ => 0))
    (h : ∀ arm ∈ arms, Charges room arm.codec lo hi) :
    Charges room (Codec.enum tag arms unwritten unknown width htag hwidth) lo hi := by
  intro v bytes hwrite
  simp only [Codec.enum] at hwrite ⊢
  cases harm : armOf arms (tagOf v) with
  | none =>
    rw [harm] at hwrite
    cases hwrite
  | some arm =>
    rw [harm] at hwrite
    obtain ⟨front, hfront, back, hback, hwrite⟩ := binds_ok.mp hwrite
    obtain ⟨hleast, henough⟩ := h arm (armOf_some harm).1 _ _ hback
    refine ⟨hleast, fun room' hroom => ?_⟩
    exact exists_concat ((hflat _ _ hfront).2 room' (Nat.zero_le _)) (henough room' hroom)

end Enum

theorem Charges.fix {width : ℕ} {L : Layer ε δ α width}
    (h : ∀ {room c hc}, (∀ below < room, Charges below c lo hi) →
      Charges room (L.over_ c hc) lo hi) :
    Charges room (L.fix refused refused') lo hi := by
  induction room using Nat.strongRecOn with
  | ind room ih => exact Charges.same (fun _ => L.fix_same refused refused') (h ih)

def Shallow (enough : ℕ) (c : Codec ε δ α) : Prop :=
  ∀ room, Charges room c (fun _ => 0) (fun _ => enough)

variable {enough : ℕ}

theorem Shallow.flat (h : ∀ room room' v, c.encode room v = c.encode room' v) : Shallow 0 c :=
  fun _ => Charges.flat h

variable (h : Shallow enough c)
include h

theorem Shallow.mono {more : ℕ} (hmore : enough ≤ more) : Shallow more c :=
  fun room => (h room).mono (fun _ => le_rfl) (fun _ => hmore)

theorem Shallow.via {hview : ∀ a b, build a = .ok b ↔ view b = .ok a} :
    Shallow enough (c.via view build hview) :=
  fun room => (h room).via fun _ _ _ => ⟨le_rfl, le_rfl⟩

theorem Shallow.iso : Shallow enough (c.iso e) :=
  fun room => (h room).iso fun _ => ⟨le_rfl, le_rfl⟩

theorem Shallow.check : Shallow enough (c.check judge) :=
  fun room => (h room).check

theorem Shallow.seq (hb : Shallow enough b) : Shallow enough (c.seq b) :=
  fun room => ((h room).seq (hb room)).mono (fun _ => Nat.zero_le _) fun _ => (max_self _).le

theorem Shallow.descend : Shallow (enough + 1) (c.descend refused refused') :=
  fun _ => (Charges.descend fun below _ => h below).mono (fun _ => Nat.zero_le _) fun _ => le_rfl

theorem Shallow.many : Shallow enough (c.many follows uncounted n) :=
  fun room => (h room).many.mono (fun _ => Nat.zero_le _) fun _ =>
    deepest_le.mpr fun _ _ => le_rfl

end Codec

end HyperscaleVm.Library

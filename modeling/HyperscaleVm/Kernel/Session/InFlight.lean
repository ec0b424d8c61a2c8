import HyperscaleVm.Kernel.Session.Inversion

/-!
# What the buckets carry
-/

namespace HyperscaleVm.Kernel
open List Library

/-- A measure of what a bucket carries, shared out by a split and joined by a merge. -/
structure Weight where
  of : Held → ℕ
  split : ∀ left off, of (.amount (left + off)) = of (.amount left) + of (.amount off)
  merge : ∀ {held added total}, Buckets.merged held added = .ok total →
    of total = of held + of added
  empty : ∀ held : Held, held.quantity = 0 → of held = 0

namespace Weight

variable (w : Weight) (resource : ResourceAddr)

def toward (held : Held) (carried : ResourceAddr) : ℕ := if carried = resource then w.of held else 0

def inSlot (slot : Option Held) (carried : ResourceAddr) : ℕ :=
  (slot.map fun held => w.toward resource held carried).getD 0

def inFlight (b : Books) : ℕ := (List.zipWith (w.inSlot resource) b.slots b.resources).sum

def atRep (b : Books) (rep : ℕ) : ℕ :=
  match b.slots[rep]?, b.resources[rep]? with
  | some slot, some carried => w.inSlot resource slot carried
  | _, _ => 0

variable {b : Books} {rep : ℕ} {held : Held} {carried : ResourceAddr}

theorem atRep_live
    (h : b.Live rep held carried) : w.atRep resource b rep = w.toward resource held carried := by
  unfold atRep
  rw [h.1, h.2]
  rfl

theorem inFlight_push (hlen : b.slots.length = b.resources.length) (held : Held)
    (carried : ResourceAddr) (origin : Option SubstateKey) :
    w.inFlight resource (b.push held carried origin) =
      w.inFlight resource b + w.toward resource held carried := by
  unfold inFlight Books.push
  rw [zipWith_append hlen, sum_append]
  simp [inSlot]

theorem inFlight_close (h : b.Live rep held carried) :
    w.inFlight resource (b.close rep) + w.toward resource held carried = w.inFlight resource b :=
  Library.sum_zipWith_set (w.inSlot resource) h.1 h.2 none

theorem inFlight_closed (h : b.Live rep held carried) :
    w.inFlight resource (b.close rep) + w.atRep resource b rep = w.inFlight resource b := by
  rw [w.atRep_live resource h]
  exact w.inFlight_close resource h

theorem inFlight_refill (h : b.Live rep held carried) (held' : Held) :
    w.inFlight resource (b.refill rep held') + w.toward resource held carried =
      w.inFlight resource b + w.toward resource held' carried :=
  Library.sum_zipWith_set (w.inSlot resource) h.1 h.2 (some held')

end Weight

namespace Deed

variable (w : Weight) (resource : ResourceAddr)

def opens : Deed → ℕ
  | .debit _ amount carried | .takeReserved _ amount carried _ =>
    w.toward resource (.amount amount) carried
  | .mint held carried _ => w.toward resource held carried
  | .claim crossed _ _ _ => w.toward resource (.amount crossed.amount) crossed.resource
  | .takeInstances _ ids carried => w.toward resource (.instances ids) carried
  | _ => 0

def closes (b : Books) : Deed → ℕ
  | .credit _ _ funds | .burn funds _ | .issue _ _ funds _ _ _ _ | .fileInstances _ _ funds _ =>
    w.atRep resource b funds
  | _ => 0

end Deed

namespace Books

def Paired (b : Books) : Prop := b.slots.length = b.resources.length

theorem Paired.apply {b : Books} (h : b.Paired) (deed : Deed) : (deed.apply b).Paired := by
  unfold Paired at h ⊢
  cases deed <;> simpa [Deed.apply, push, close, refill, enqueue, setEntries] using h

end Books

theorem Weight.inFlight_apply (w : Weight) (resource : ResourceAddr) {s : Session} {deed : Deed}
    (hpaired : s.books.Paired) (h : deed.Allowed s) :
    w.inFlight resource (deed.apply s.books) + deed.closes w resource s.books =
      w.inFlight resource s.books + deed.opens w resource := by
  cases deed with
  | nothing | setCell | setEntry => rfl
  | debit | takeReserved | mint | claim | takeInstances =>
    exact w.inFlight_push resource hpaired _ _ none
  | credit key amount funds =>
    obtain ⟨rep, held, carried, -, -, hlive⟩ := h
    exact w.inFlight_closed resource hlive
  | burn funds supply =>
    obtain ⟨held, carried, hlive, -⟩ := h
    exact w.inFlight_closed resource hlive
  | issue node output funds crossed record value escrow =>
    obtain ⟨hlive, -⟩ := h
    exact w.inFlight_closed resource hlive
  | fileInstances interval ids funds value =>
    obtain ⟨rep, moves, carried, -, hlive, -⟩ := h
    exact w.inFlight_closed resource hlive
  | split rep left off carried origin =>
    obtain ⟨hlive, -⟩ := h
    have hrefill := w.inFlight_refill resource hlive (.amount left)
    have hpush := w.inFlight_push resource (b := s.books.refill rep (.amount left))
      ((length_set ..).trans hpaired) (.amount off) carried origin
    have hshare : w.toward resource (.amount (left + off)) carried =
        w.toward resource (.amount left) carried + w.toward resource (.amount off) carried := by
      unfold Weight.toward
      split
      · exact w.split left off
      · rfl
    change w.inFlight resource
      ((s.books.refill rep (.amount left)).push (.amount off) carried origin) =
      w.inFlight resource s.books
    omega
  | merge rep other total origins =>
    obtain ⟨held, added, carried, hne, hlive, hother, htotal, -⟩ := h
    have hclose := w.inFlight_close resource hother
    have hstill : (s.books.close other).Live rep held carried := by
      refine ⟨?_, hlive.2⟩
      change (s.books.slots.set other none)[rep]? = _
      rw [getElem?_set_ne hne.symm]
      exact hlive.1
    have hrefill := w.inFlight_refill resource hstill total
    have hjoin : w.toward resource total carried =
        w.toward resource held carried + w.toward resource added carried := by
      unfold Weight.toward
      split
      · exact w.merge htotal
      · rfl
    change w.inFlight resource ((s.books.close other).refill rep total) =
      w.inFlight resource s.books
    omega
  | discard rep =>
    obtain ⟨held, carried, hslot, hzero, hresource⟩ := h
    -- a slot that has a bucket has a resource
    obtain ⟨hlt, -⟩ := List.getElem?_eq_some_iff.mp hslot
    have hlive : s.books.Live rep held (s.books.resources.get ⟨rep, hpaired ▸ hlt⟩) :=
      ⟨hslot, getElem?_eq_getElem _⟩
    have hclose := w.inFlight_close resource hlive
    have hnone : w.toward resource held (s.books.resources.get ⟨rep, hpaired ▸ hlt⟩) = 0 := by
      unfold Weight.toward
      split
      · exact w.empty held hzero
      · rfl
    change w.inFlight resource (s.books.close rep) = w.inFlight resource s.books
    omega

end HyperscaleVm.Kernel

import HyperscaleVm.Library.OrdMap

/-!
# Folds that act key by key

A fold over the entries of a map whose step changes what stands at its own key
alone: what stands at a key afterwards is what its own entry's step left there,
from what stood there before the fold, and a key without an entry keeps what it had.
-/

namespace HyperscaleVm.Library
open List

variable {ε σ α β γ κ : Type}

section

variable {f : σ → α → Except ε σ} {keyOf : α → κ} {get : σ → κ → γ}
  (hother : ∀ s x s', f s x = .ok s' → ∀ k, k ≠ keyOf x → get s' k = get s k) {l : List α}
  (hnodup : (l.map keyOf).Nodup) {s s' : σ}
include hother hnodup

theorem foldlM_keyed (h : l.foldlM f s = .ok s') :
    (∀ k, k ∉ l.map keyOf → get s' k = get s k) ∧
      ∀ x ∈ l, ∃ u u', f u x = .ok u' ∧ get u (keyOf x) = get s (keyOf x) ∧
        get s' (keyOf x) = get u' (keyOf x) := by
  induction l generalizing s with
  | nil =>
    cases h
    exact ⟨fun _ _ => rfl, fun x hx => by cases hx⟩
  | cons y l ih =>
    rw [foldlM_cons] at h
    obtain ⟨t, hstep, h⟩ := bind_ok.mp h
    obtain ⟨hfresh, hnodup⟩ := nodup_cons.mp hnodup
    obtain ⟨hnone, hsome⟩ := ih hnodup h
    constructor
    · intro k hk
      rw [map_cons, mem_cons, not_or] at hk
      exact (hnone k hk.2).trans (hother s y t hstep k hk.1)
    · intro x hx
      rcases mem_cons.mp hx with rfl | hx
      · -- the element's own step is the first, and nothing after it is at its key
        exact ⟨s, t, hstep, rfl, hnone (keyOf x) hfresh⟩
      · have hne : keyOf x ≠ keyOf y := fun heq => hfresh (heq ▸ mem_map_of_mem hx)
        obtain ⟨u, u', hu, hread, hleft⟩ := hsome x hx
        exact ⟨u, u', hu, hread.trans (hother s y t hstep _ hne), hleft⟩

theorem foldlM_keyed_passes
    (hpasses : ∀ x ∈ l, ∀ u, get u (keyOf x) = get s (keyOf x) → ∃ u', f u x = .ok u') :
    ∃ s', l.foldlM f s = .ok s' := by
  induction l generalizing s with
  | nil => exact ⟨s, rfl⟩
  | cons y l ih =>
    obtain ⟨hfresh, hnodup⟩ := nodup_cons.mp hnodup
    obtain ⟨t, ht⟩ := hpasses y mem_cons_self s rfl
    obtain ⟨s', hs'⟩ := ih hnodup (s := t) fun x hx u hu => by
      have hne : keyOf x ≠ keyOf y := fun heq => hfresh (heq ▸ mem_map_of_mem hx)
      exact hpasses x (mem_cons_of_mem _ hx) u (hu.trans (hother s y t ht _ hne))
    refine ⟨s', ?_⟩
    rw [foldlM_cons, ht]
    exact hs'

end

theorem foldlM_at_key {f : σ → κ × β → Except ε σ} {get : σ → κ → γ}
    (hother : ∀ s p s', f s p = .ok s' → ∀ k, k ≠ p.1 → get s' k = get s k) {l : List (κ × β)}
    (hnodup : (l.map Prod.fst).Nodup) {s s' : σ} (h : l.foldlM f s = .ok s') (k : κ) :
    ((∀ b, (k, b) ∉ l) → get s' k = get s k) ∧
      ∀ b, (k, b) ∈ l → ∃ u u', f u (k, b) = .ok u' ∧ get u k = get s k ∧ get s' k = get u' k := by
  obtain ⟨hnone, hsome⟩ := foldlM_keyed hother hnodup h
  refine ⟨fun habsent => hnone k fun hk => ?_, fun b hb => hsome _ hb⟩
  obtain ⟨p, hp, rfl⟩ := mem_map.mp hk
  exact habsent p.2 hp

theorem foldl_at_key {f : σ → κ × β → σ} {get : σ → κ → γ}
    (hother : ∀ s p, ∀ k, k ≠ p.1 → get (f s p) k = get s k) {l : List (κ × β)}
    (hnodup : (l.map Prod.fst).Nodup) (s : σ) (k : κ) :
    ((∀ b, (k, b) ∉ l) → get (l.foldl f s) k = get s k) ∧
      ∀ b, (k, b) ∈ l → ∃ u, get u k = get s k ∧ get (l.foldl f s) k = get (f u (k, b)) k := by
  have h : l.foldlM (fun s p => (.ok (f s p) : Except Unit σ)) s = .ok (l.foldl f s) :=
    foldlM_pure
  have hlocal : ∀ s p s', (.ok (f s p) : Except Unit σ) = .ok s' → ∀ k, k ≠ p.1 →
      get s' k = get s k := by
    intro s p s' heq k hk
    cases heq
    exact hother s p k hk
  obtain ⟨hnone, hsome⟩ := foldlM_at_key hlocal hnodup h k
  refine ⟨hnone, fun b hb => ?_⟩
  obtain ⟨u, u', hu, hread, hleft⟩ := hsome b hb
  cases hu
  exact ⟨u, hread, hleft⟩

theorem foldlM_congr {α β ε : Type*} {f g : β → α → Except ε β} {l : List α}
    (h : ∀ b, ∀ a ∈ l, f b a = g b a) (b : β) : l.foldlM f b = l.foldlM g b := by
  induction l generalizing b with
  | nil => rfl
  | cons a l ih =>
    rw [foldlM_cons, foldlM_cons, h b a mem_cons_self]
    exact congrArg _ (funext fun b' => ih (fun b a ha => h b a (mem_cons_of_mem _ ha)) b')

theorem foldlM_invariant {f : σ → α → Except ε σ} {P : σ → Prop}
    (hstep : ∀ s s' a, P s → f s a = .ok s' → P s') {l : List α} {s s' : σ}
    (h : l.foldlM f s = .ok s') (hs : P s) : P s' := by
  induction l generalizing s with
  | nil =>
    cases h
    exact hs
  | cons a l ih =>
    rw [foldlM_cons] at h
    obtain ⟨t, ht, h⟩ := bind_ok.mp h
    exact ih h (hstep s t a hs ht)

theorem foldlM_keeps {f : σ → α → Except ε σ} {get : σ → γ}
    (hstep : ∀ s a s', f s a = .ok s' → get s' = get s) {l : List α} {s s' : σ}
    (h : l.foldlM f s = .ok s') : get s' = get s := by
  have hkept : ∀ t t' a, get t = get s → f t a = .ok t' → get t' = get s :=
    fun t t' a ht hnext => (hstep t a t' hnext).trans ht
  exact foldlM_invariant hkept h rfl

theorem foldl_keeps {f : σ → α → σ} {get : σ → γ} (hstep : ∀ s a, get (f s a) = get s)
    (l : List α) (s : σ) : get (l.foldl f s) = get s := by
  induction l generalizing s with
  | nil => rfl
  | cons a l ih => exact (ih (f s a)).trans (hstep s a)

end HyperscaleVm.Library

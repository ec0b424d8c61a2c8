import HyperscaleVm.Library.Check

/-!
# What a computation may refuse with

`Refuses P x` bounds the refusals of a computation in `Except ε` by a property of the
refusal.
-/

namespace HyperscaleVm.Library
open List

variable {ε δ α β σ : Type} {P : ε → Prop}

def Refuses (P : ε → Prop) (x : Except ε α) : Prop := ∀ e, x = .error e → P e

@[simp]
theorem Refuses.ok (a : α) : Refuses P (.ok a) := fun e h => by cases h

@[simp]
theorem Refuses.pure (a : α) : Refuses P (pure a : Except ε α) := fun e h => by cases h

variable {x : Except ε α}

theorem Refuses.mono {Q : ε → Prop} (h : Refuses P x) (hPQ : ∀ e, P e → Q e) :
    Refuses Q x := fun e he => hPQ e (h e he)

@[simp]
theorem refuses_error {e : ε} : Refuses P (.error e : Except ε α) ↔ P e := by
  refine ⟨fun h => h e rfl, fun h e' he => ?_⟩
  cases he
  exact h

theorem Refuses.error {e : ε} (h : P e) : Refuses P (.error e : Except ε α) := refuses_error.mpr h

variable {f : α → Except ε β}

theorem Refuses.bind (hx : Refuses P x)
    (hf : ∀ a, x = .ok a → Refuses P (f a)) : Refuses P (x >>= f) := by
  intro e h
  cases x with
  | error e' =>
    cases h
    exact hx e rfl
  | ok a => exact hf a rfl e h

theorem Refuses.after {a : α} (hx : x = .ok a) (hf : Refuses P (f a)) : Refuses P (x >>= f) := by
  rw [hx]
  exact hf

theorem Refuses.seq {x : Except ε Unit} {y : Except ε α} (hx : Refuses P x)
    (hy : x = .ok () → Refuses P y) : Refuses P (x >>= fun _ => y) :=
  hx.bind fun _ h => hy h

theorem Refuses.map {f : α → β} (h : Refuses P x) : Refuses P (x.map f) := by
  intro e he
  cases x with
  | error e' =>
    cases he
    exact h e rfl
  | ok a => cases he

theorem Refuses.mapError {f : ε → δ} {Q : δ → Prop} (h : ∀ e, Q (f e)) :
    Refuses Q (x.mapError f) := by
  intro e he
  cases x with
  | error e' =>
    cases he
    exact h e'
  | ok a => cases he

@[simp]
theorem refuses_require {cond : Bool} {refusal : ε} :
    Refuses P (require cond refusal) ↔ (cond = false → P refusal) := by
  cases cond <;> simp [require]

theorem Refuses.require {cond : Bool} {refusal : ε} (h : cond = false → P refusal) :
    Refuses P (require cond refusal) := refuses_require.mpr h

variable {as : List α}

theorem Refuses.tryAll {check : α → Except ε Unit}
    (h : ∀ a ∈ as, Refuses P (check a)) : Refuses P (tryAll check as) := by
  induction as with
  | nil => exact .ok ()
  | cons a as ih =>
    refine .seq (h a mem_cons_self) fun _ => ih fun b hb => ?_
    exact h b (mem_cons_of_mem a hb)

theorem Refuses.tryIndexed {check : ℕ → α → Except ε Unit}
    (h : ∀ i a, as[i]? = some a → Refuses P (check i a)) : Refuses P (tryIndexed check as) := by
  refine .tryAll fun p hp => ?_
  exact h p.2 p.1 (mem_zipIdx_iff_getElem?.mp hp)

theorem Refuses.mapM (h : ∀ a ∈ as, Refuses P (f a)) : Refuses P (as.mapM f) := by
  induction as with
  | nil =>
    rw [mapM_nil]
    exact .pure _
  | cons a as ih =>
    rw [mapM_cons]
    refine (h a mem_cons_self).bind fun b _ => ?_
    exact (ih fun c hc => h c (mem_cons_of_mem a hc)).bind fun bs _ => .pure _

theorem Refuses.foldlM {f : σ → α → Except ε σ} {I : ℕ → σ → Prop} {n : ℕ} {s : σ} (hs : I n s)
    (hstep : ∀ i a s, as[i]? = some a → I (n + i) s →
      Refuses P (f s a) ∧ ∀ t, f s a = .ok t → I (n + i + 1) t) : Refuses P (as.foldlM f s) := by
  induction as generalizing n s with
  | nil =>
    rw [foldlM_nil]
    exact .pure _
  | cons a as ih =>
    rw [foldlM_cons]
    obtain ⟨hhead, hkeep⟩ := hstep 0 a s rfl hs
    refine hhead.bind fun t ht => ih (hkeep t ht) fun i b u hb hu => ?_
    have hnext : n + 1 + i = n + (i + 1) := by omega
    rw [hnext] at hu ⊢
    exact hstep (i + 1) b u hb hu

theorem Refuses.foldlM_each {f : σ → α → Except ε σ} {s : σ}
    (h : ∀ a ∈ as, ∀ s, Refuses P (f s a)) : Refuses P (as.foldlM f s) := by
  refine Refuses.foldlM (I := fun _ _ => True) (n := 0) trivial fun i a s ha _ => ?_
  exact ⟨h a (mem_of_getElem? ha) s, fun _ _ => trivial⟩

end HyperscaleVm.Library

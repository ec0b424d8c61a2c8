import Mathlib

/-!
# Checks that stop at the first refusal
-/

namespace HyperscaleVm.Library
open List

variable {ε α β γ : Type} {x : Except ε α} {b : β}

theorem bind_ok {f : α → Except ε β} : (x >>= f) = .ok b ↔ ∃ a, x = .ok a ∧ f a = .ok b := by
  cases x with
  | error | ok => simp [bind, Except.bind]

theorem do_some {o : Option α} {f : α → Option β} : (o >>= f) = some b ↔ ∃ a, o = some a ∧
    f a = some b :=
  Option.bind_eq_some_iff

theorem binds_ok {y : α → Except ε γ} {f : α → γ → Except ε β} :
    (x >>= fun a => y a >>= f a) = .ok b ↔ ∃ a, x = .ok a ∧ ∃ c, y a = .ok c ∧ f a c = .ok b := by
  simp only [bind_ok]

theorem map_ok {f : α → β} : x.map f = .ok b ↔ ∃ a, x = .ok a ∧ f a = b := by
  cases x with
  | error | ok => simp [Except.map]

variable {a : α}

theorem mapError_ok {δ : Type} {f : ε → δ} : x.mapError f = .ok a ↔ x = .ok a := by
  cases x with
  | error | ok => simp [Except.mapError]

def require (cond : Bool) (refusal : ε) : Except ε Unit :=
  if cond then .ok () else .error refusal

@[simp]
theorem require_ok {cond : Bool} {refusal : ε} : require cond refusal = .ok () ↔ cond = true := by
  cases cond <;> simp [require]

def refuse (fault : Option ε) : Except ε Unit :=
  match fault with
  | none => .ok ()
  | some refusal => .error refusal

def passes (x : Except ε α) (p : α → Bool) : Bool :=
  match x with
  | .ok a => p a
  | .error _ => false

theorem passes_iff {p : α → Bool} : passes x p = true ↔ ∃ a, x = .ok a ∧ p a = true := by
  cases x <;> simp [passes]

@[simp]
theorem seq_ok {x : Except ε Unit} {y : Except ε α} :
    (x >>= fun _ => y) = .ok a ↔ x = .ok () ∧ y = .ok a := by
  rw [bind_ok]
  constructor
  · rintro ⟨⟨⟩, hx, hy⟩
    exact ⟨hx, hy⟩
  · rintro ⟨hx, hy⟩
    exact ⟨(), hx, hy⟩

def tryAll (check : α → Except ε Unit) : List α → Except ε Unit
  | [] => .ok ()
  | a :: as => do
    check a
    tryAll check as

variable {as : List α}

@[simp]
theorem tryAll_ok {check : α → Except ε Unit} :
    tryAll check as = .ok () ↔ ∀ a ∈ as, check a = .ok () := by
  induction as with
  | nil => simp [tryAll]
  | cons a as ih => simp [tryAll, ih]

def tryIndexed (check : ℕ → α → Except ε Unit) (as : List α) : Except ε Unit :=
  tryAll (fun p => check p.2 p.1) as.zipIdx

@[simp]
theorem tryIndexed_ok {check : ℕ → α → Except ε Unit} :
    tryIndexed check as = .ok () ↔ ∀ i a, as[i]? = some a → check i a = .ok () := by
  simp only [tryIndexed, tryAll_ok, Prod.forall, mem_zipIdx_iff_getElem?]
  exact forall_comm

theorem foldlM_marks {σ : Type} {f : σ → α → Except ε σ} {R : σ → σ → Prop} {Q : α → σ → Prop}
    (hrefl : ∀ s, R s s) (htrans : ∀ s t u, R s t → R t u → R s u)
    (hmono : ∀ a s t, R s t → Q a s → Q a t) {s s' : σ}
    (hstep : ∀ s t, ∀ a ∈ as, f s a = .ok t → R s t ∧ Q a t) (h : as.foldlM f s = .ok s') :
    R s s' ∧ ∀ a ∈ as, Q a s' := by
  induction as generalizing s with
  | nil =>
    cases h
    exact ⟨hrefl _, by simp⟩
  | cons a as ih =>
    rw [foldlM_cons] at h
    obtain ⟨t, ht, h⟩ := bind_ok.mp h
    obtain ⟨hle, hmark⟩ := hstep s t a mem_cons_self ht
    obtain ⟨hle', hmarks⟩ := ih (fun s t b hb => hstep s t b (mem_cons_of_mem a hb)) h
    refine ⟨htrans _ _ _ hle hle', fun b hb => ?_⟩
    rcases mem_cons.mp hb with rfl | hb
    · exact hmono _ _ _ hle' hmark
    · exact hmarks b hb

theorem foldlM_at {σ : Type} {f : σ → α → Except ε σ} {s s' : σ}
    (h : as.foldlM f s = .ok s') {j : ℕ} (hj : as[j]? = some a) :
    ∃ t u, (as.take j).foldlM f s = .ok t ∧ f t a = .ok u ∧
      (as.drop (j + 1)).foldlM f u = .ok s' := by
  induction as generalizing s j with
  | nil => simp at hj
  | cons x xs ih =>
    rw [foldlM_cons] at h
    obtain ⟨t, ht, h⟩ := bind_ok.mp h
    cases j with
    | zero =>
      obtain rfl : x = a := by simpa using hj
      exact ⟨s, t, rfl, ht, by simpa using h⟩
    | succ j =>
      obtain ⟨t', u, htake, hu, hdrop⟩ := ih h (by simpa using hj)
      refine ⟨t', u, ?_, hu, by simpa using hdrop⟩
      rw [take_succ_cons, foldlM_cons, ht]
      exact htake

variable {bs : List β}

theorem mapM_ok {f : α → Except ε β} :
    as.mapM f = .ok bs ↔ List.Forall₂ (fun a b => f a = .ok b) as bs := by
  induction as generalizing bs with
  | nil =>
    rw [mapM_nil, forall₂_nil_left_iff]
    exact ⟨fun h => (Except.ok.inj h).symm, fun h => h ▸ rfl⟩
  | cons a as ih =>
    rw [mapM_cons, forall₂_cons_left_iff]
    constructor
    · intro h
      obtain ⟨b, hb, h⟩ := bind_ok.mp h
      obtain ⟨bs', hbs, h⟩ := bind_ok.mp h
      cases h
      exact ⟨b, bs', hb, ih.mp hbs, rfl⟩
    · rintro ⟨b, bs', hb, hbs, rfl⟩
      rw [hb, ih.mpr hbs]
      rfl

variable {f : α → Option β}

theorem mapM_some : as.mapM f = some bs ↔ List.Forall₂ (fun a b => f a = some b) as bs := by
  induction as generalizing bs with
  | nil =>
    rw [mapM_nil, forall₂_nil_left_iff]
    exact ⟨fun h => (Option.some.inj h).symm, fun h => congrArg some h.symm⟩
  | cons a as ih =>
    rw [mapM_cons, forall₂_cons_left_iff]
    constructor
    · intro h
      obtain ⟨b, hb, h⟩ := Option.bind_eq_some_iff.mp h
      obtain ⟨bs', hbs, h⟩ := Option.bind_eq_some_iff.mp h
      exact ⟨b, bs', hb, ih.mp hbs, (Option.some.inj h).symm⟩
    · rintro ⟨b, bs', hb, hbs, rfl⟩
      rw [hb, ih.mpr hbs]
      rfl

theorem mapM_at {f : α → Except ε β} (h : as.mapM f = .ok bs) {i : ℕ} (hb : bs[i]? = some b) :
    ∃ a, as[i]? = some a ∧ f a = .ok b := by
  have hall := mapM_ok.mp h
  clear h
  induction hall generalizing i with
  | nil => simp at hb
  | cons hhead _ ih =>
    cases i with
    | zero =>
      obtain rfl := Option.some.inj hb
      exact ⟨_, rfl, hhead⟩
    | succ i => exact ih hb

def keepNew [BEq α] (kept : List α) (a : α) : List α :=
  if kept.contains a then kept else kept ++ [a]

theorem foldl_collects {σ : Type} {f : σ → α → σ} {P : σ → Prop} {Q : α → Prop}
    (hstep : ∀ s a, P (f s a) ↔ P s ∨ Q a) (s : σ) : P (as.foldl f s) ↔ P s ∨ ∃ a ∈ as, Q a := by
  induction as generalizing s with
  | nil => simp
  | cons a as ih =>
    rw [foldl_cons, ih, hstep, or_assoc, exists_mem_cons_iff]

theorem mem_foldl_keepNew [BEq α] [LawfulBEq α] {kept : List α} :
    a ∈ as.foldl keepNew kept ↔ a ∈ kept ∨ a ∈ as := by
  have hstep : ∀ kept x, a ∈ keepNew kept x ↔ a ∈ kept ∨ a = x := by
    intro kept x
    unfold keepNew
    split
    · rename_i hin
      exact ⟨.inl, fun h => h.elim id fun h => h ▸ by simpa using hin⟩
    · simp
  rw [foldl_collects (P := (a ∈ ·)) hstep]
  simp

variable {R : α → β → Prop}

theorem exists_mem_left (h : List.Forall₂ R as bs) (hb : b ∈ bs) : ∃ a ∈ as, R a b := by
  induction h with
  | nil => cases hb
  | cons hab _ ih =>
    rcases mem_cons.mp hb with rfl | hb
    · exact ⟨_, mem_cons_self, hab⟩
    · obtain ⟨a, ha, hR⟩ := ih hb
      exact ⟨a, mem_cons_of_mem _ ha, hR⟩

theorem exists_mem_right (h : List.Forall₂ R as bs) (ha : a ∈ as) : ∃ b ∈ bs, R a b :=
  exists_mem_left h.flip ha

theorem exists_related (h : ∀ a ∈ as, ∃ b, R a b) : ∃ bs, List.Forall₂ R as bs := by
  induction as with
  | nil => exact ⟨[], .nil⟩
  | cons a as ih =>
    obtain ⟨b, hb⟩ := h a mem_cons_self
    obtain ⟨bs, hbs⟩ := ih fun a' ha' => h a' (mem_cons_of_mem a ha')
    exact ⟨b :: bs, .cons hb hbs⟩

theorem mapM_answers {f : α → Except ε β} (h : ∀ a ∈ as, ∃ b, f a = .ok b) :
    ∃ bs, as.mapM f = .ok bs :=
  (exists_related h).imp fun _ => mapM_ok.mpr

theorem mapM_total (h : ∀ a ∈ as, ∃ b, f a = some b) : ∃ bs, as.mapM f = some bs :=
  (exists_related h).imp fun _ => mapM_some.mpr

theorem mapM_congr {g : α → Option β} (h : ∀ a ∈ as, f a = g a) : as.mapM f = as.mapM g := by
  induction as with
  | nil => rfl
  | cons a as ih =>
    rw [mapM_cons, mapM_cons, h a mem_cons_self,
      ih fun b hb => h b (mem_cons_of_mem a hb)]

theorem getElem?_of_mapM
    (h : as.mapM f = some bs) {i : ℕ} (ha : as[i]? = some a) : bs[i]? = f a := by
  have hall := mapM_some.mp h
  clear h
  induction hall generalizing i with
  | nil => cases ha
  | cons hhead _ ih =>
    cases i with
    | zero =>
      cases ha
      exact hhead.symm
    | succ i => exact ih ha

theorem mapM_inj (hf : ∀ a a' b, f a = some b → f a' = some b → a = a')
    {as' : List α} (h : as.mapM f = some bs) (h' : as'.mapM f = some bs) : as = as' := by
  have hall := mapM_some.mp h
  have hall' := mapM_some.mp h'
  clear h h'
  induction hall generalizing as' with
  | nil =>
    cases hall'
    rfl
  | cons hhead _ ih =>
    cases hall' with
    | cons hhead' htail' => rw [hf _ _ _ hhead hhead', ih htail']

theorem length_of_mapM (h : as.mapM f = some bs) : bs.length = as.length :=
  (mapM_some.mp h).length_eq.symm

section Places
variable {as bs : List α} {a b : α} {i j : ℕ}

theorem getElem?_of_prefix (h : as <+: bs) (hi : as[i]? = some a) : bs[i]? = some a := by
  obtain ⟨cs, rfl⟩ := h
  rw [getElem?_append_left (List.getElem?_eq_some_iff.mp hi).1, hi]

theorem getElem?_concat_some :
    (as ++ [a])[i]? = some b ↔ as[i]? = some b ∨ i = as.length ∧ a = b := by
  rw [getElem?_append]
  split
  · simp only [iff_self_or]
    omega
  · rename_i hge
    rw [getElem?_eq_none (Nat.le_of_not_lt hge), getElem?_singleton]
    split <;> simp <;> omega

theorem getElem?_inj_of_nodup (h : as.Nodup) (hi : as[i]? = some a) (hj : as[j]? = some a) :
    i = j :=
  (getElem?_inj (List.getElem?_eq_some_iff.mp hi).1 h).mp (hi.trans hj.symm)

end Places

end HyperscaleVm.Library

import HyperscaleVm.Kernel.Overlay

/-!
# A merged scan answers as the collapsed store does
-/

namespace HyperscaleVm.Kernel
open OverlayStore List Option
open Std (ExtTreeMap)

def Ascends {β : Type} (run : List (ℕ × β)) : Prop := run.Pairwise fun a b => a.1 < b.1

section

variable {β : Type} {run : List (ℕ × β)} {order order' : ℕ}

theorem lookup_eq_some_iff (h : Ascends run) {v : β} :
    run.lookup order = some v ↔ (order, v) ∈ run := by
  induction run with
  | nil => simp
  | cons p run ih =>
    obtain ⟨o, w⟩ := p
    obtain ⟨hhead, htail⟩ := pairwise_cons.mp h
    rw [lookup_cons, mem_cons]
    by_cases ho : order = o
    · subst ho
      simp only [beq_self_eq_true, some.injEq, Prod.mk.injEq, true_and]
      refine ⟨fun heq => .inl heq.symm, fun hmem => ?_⟩
      rcases hmem with heq | hmem
      · exact heq.symm
      · exact absurd (hhead _ hmem) (lt_irrefl _)
    · have hne : (order == o) = false := by simpa using ho
      simp [hne, ho, ih htail]

theorem lookup_eq_none_of_lt (h : ∀ p ∈ run, order < p.1) : run.lookup order = none := by
  rw [lookup_eq_none_iff]
  intro p hp
  simpa using (h p hp).ne

theorem nextIf_spec (h : Ascends run) (hle : ∀ p ∈ run, order ≤ p.1) :
    (nextIf order run).1 = run.lookup order ∧ Ascends (nextIf order run).2 ∧
      (∀ p ∈ (nextIf order run).2, order < p.1) ∧
      ∀ order', order < order' → (nextIf order run).2.lookup order' = run.lookup order' := by
  cases run with
  | nil => exact ⟨rfl, h, by simp [nextIf], fun _ _ => rfl⟩
  | cons p run =>
    obtain ⟨o, w⟩ := p
    obtain ⟨hhead, htail⟩ := pairwise_cons.mp h
    by_cases ho : o = order
    · subst ho
      have hnext : nextIf o ((o, w) :: run) = (some w, run) := if_pos rfl
      rw [hnext]
      refine ⟨by simp, htail, fun p hp => hhead p hp, fun order' hlt => ?_⟩
      have hne : (order' == o) = false := by simpa using hlt.ne'
      simp [lookup_cons, hne]
    · have hnext : nextIf order ((o, w) :: run) = (none, (o, w) :: run) := if_neg ho
      have hlt : order < o := lt_of_le_of_ne (hle _ mem_cons_self) (Ne.symm ho)
      have hall : ∀ p ∈ (o, w) :: run, order < p.1 := by
        intro p hp
        rcases mem_cons.mp hp with rfl | hp
        · exact hlt
        · exact hlt.trans (hhead p hp)
      rw [hnext]
      exact ⟨(lookup_eq_none_of_lt hall).symm, h, hall, fun _ _ => rfl⟩

theorem nextIf_length (order : ℕ) (run : List (ℕ × β)) : (nextIf order run).2.length ≤ run.length ∧
    (run.head?.map Prod.fst = some order → (nextIf order run).2.length + 1 = run.length) := by
  cases run with
  | nil => simp [nextIf]
  | cons p run =>
    by_cases ho : p.1 = order <;> simp [nextIf, ho]

theorem nextIf_take (order : ℕ) (run : List (ℕ × β)) (n : ℕ) :
    (nextIf order (run.take (n + 1))).1 = (nextIf order run).1 ∧ ((nextIf order run).1 = none →
        (nextIf order (run.take (n + 1))).2 = (nextIf order run).2.take (n + 1)) ∧
      ((nextIf order run).1 ≠ none →
        (nextIf order (run.take (n + 1))).2 = (nextIf order run).2.take n) := by
  cases run with
  | nil => simp [nextIf]
  | cons p run =>
    by_cases ho : p.1 = order <;> simp [nextIf, ho]

end

theorem tombstones_nextIf (run : List (ℕ × Option Bytes)) (order : ℕ) :
    tombstones (nextIf order run).2 ≤ tombstones run ∧
      ((nextIf order run).1 = some none →
        tombstones (nextIf order run).2 + 1 = tombstones run) := by
  cases run with
  | nil => simp [nextIf]
  | cons p run =>
    obtain ⟨o, change⟩ := p
    by_cases ho : o = order
    · subst ho
      simp only [nextIf, if_true, tombstones, countP_cons, some.injEq]
      refine ⟨by omega, ?_⟩
      rintro rfl
      simp
    · simp [nextIf, ho]

section

variable {active committed : List (ℕ × Option Bytes)} {base listed : List (ℕ × Bytes)}

def effective (active committed : List (ℕ × Option Bytes)) (base : List (ℕ × Bytes)) (order : ℕ) :
    Option Bytes :=
  ((active.lookup order).or (committed.lookup order)).getD (base.lookup order)

structure Overlays (active committed : List (ℕ × Option Bytes)) (base listed : List (ℕ × Bytes)) :
    Prop where
  ascActive : Ascends active
  ascCommitted : Ascends committed
  ascBase : Ascends base
  ascListed : Ascends listed
  mem : ∀ order value, (order, value) ∈ listed ↔ effective active committed base order = some value

variable {order : ℕ}

theorem nextOrder_eq_some (h : nextOrder active committed base = some order) :
    (active.head?.map Prod.fst = some order ∨ committed.head?.map Prod.fst = some order ∨
      base.head?.map Prod.fst = some order) ∧
    (∀ o, active.head?.map Prod.fst = some o → order ≤ o) ∧
    (∀ o, committed.head?.map Prod.fst = some o → order ≤ o) ∧
    ∀ o, base.head?.map Prod.fst = some o → order ≤ o := by
  unfold nextOrder at h
  rw [min?_eq_some_iff] at h
  obtain ⟨hmem, hle⟩ := h
  simp only [mem_filterMap, mem_cons, not_mem_nil, or_false, id_eq, exists_eq_or_imp,
    exists_eq_left] at hmem hle
  exact ⟨hmem, fun o ho => hle o (.inl ho), fun o ho => hle o (.inr (.inl ho)),
    fun o ho => hle o (.inr (.inr ho))⟩

theorem nextOrder_eq_none (h : nextOrder active committed base = none) :
    active = [] ∧ committed = [] ∧ base = [] := by
  unfold nextOrder at h
  rw [min?_eq_none_iff, filterMap_eq_nil_iff] at h
  simpa using h

variable {n : ℕ}

theorem nextOrder_take :
    nextOrder active committed (base.take (n + 1)) = nextOrder active committed base := by
  cases base <;> rfl

variable {β : Type}

theorem Ascends.head_le {run : List (ℕ × β)} (h : Ascends run)
    (hhead : ∀ o, run.head?.map Prod.fst = some o → order ≤ o) : ∀ p ∈ run, order ≤ p.1 := by
  cases run with
  | nil => simp
  | cons q run =>
    intro p hp
    have hq : order ≤ q.1 := hhead q.1 rfl
    rcases mem_cons.mp hp with rfl | hp
    · exact hq
    · exact hq.trans ((pairwise_cons.mp h).1 p hp).le

theorem effective_ge {o : ℕ} {value : Bytes} (ha : ∀ p ∈ active, order ≤ p.1)
    (hc : ∀ p ∈ committed, order ≤ p.1) (hb : ∀ p ∈ base, order ≤ p.1)
    (h : effective active committed base o = some value) : order ≤ o := by
  by_contra hlt
  have hlt : o < order := Nat.not_le.mp hlt
  have hnone : effective active committed base o = none := by
    unfold effective
    rw [lookup_eq_none_of_lt fun p hp => hlt.trans_le (ha p hp),
      lookup_eq_none_of_lt fun p hp => hlt.trans_le (hc p hp),
      lookup_eq_none_of_lt fun p hp => hlt.trans_le (hb p hp)]
    rfl
  rw [hnone] at h
  cases h

theorem Ascends.cons_of_least {run : List (ℕ × β)} {value : β}
    (h : Ascends run) (hmem : (order, value) ∈ run) (hle : ∀ p ∈ run, order ≤ p.1) :
    ∃ rest, run = (order, value) :: rest := by
  cases run with
  | nil => cases hmem
  | cons p run =>
    rcases mem_cons.mp hmem with rfl | hmem
    · exact ⟨run, rfl⟩
    · have hlt := (pairwise_cons.mp h).1 _ hmem
      exact absurd (hle p mem_cons_self) (Nat.not_le.mpr hlt)

theorem Overlays.consume (h : Overlays active committed base listed)
    (hnext : nextOrder active committed base = some order) :
    (nextIf order active).1.or (nextIf order committed).1 =
      (active.lookup order).or (committed.lookup order) ∧
    (nextIf order base).1 = base.lookup order ∧
    ∃ rest, (∀ value, effective active committed base order = some value →
        listed = (order, value) :: rest) ∧
      (effective active committed base order = none → listed = rest) ∧
      Overlays (nextIf order active).2 (nextIf order committed).2 (nextIf order base).2 rest := by
  obtain ⟨-, hleA, hleC, hleB⟩ := nextOrder_eq_some hnext
  have hA := h.ascActive.head_le hleA
  have hC := h.ascCommitted.head_le hleC
  have hB := h.ascBase.head_le hleB
  obtain ⟨hitA, ascA, ltA, keepA⟩ := nextIf_spec h.ascActive hA
  obtain ⟨hitC, ascC, ltC, keepC⟩ := nextIf_spec h.ascCommitted hC
  obtain ⟨hitB, ascB, ltB, keepB⟩ := nextIf_spec h.ascBase hB
  refine ⟨by rw [hitA, hitC], hitB, ?_⟩
  -- past the order nothing changes, and at it nothing is left
  have hafter : ∀ o, order < o → effective (nextIf order active).2 (nextIf order committed).2
      (nextIf order base).2 o = effective active committed base o := by
    intro o ho
    unfold effective
    rw [keepA o ho, keepC o ho, keepB o ho]
  have hnone : ∀ o, o ≤ order → effective (nextIf order active).2 (nextIf order committed).2
      (nextIf order base).2 o = none := by
    intro o ho
    unfold effective
    rw [lookup_eq_none_of_lt fun p hp => ho.trans_lt (ltA p hp),
      lookup_eq_none_of_lt fun p hp => ho.trans_lt (ltC p hp),
      lookup_eq_none_of_lt fun p hp => ho.trans_lt (ltB p hp)]
    rfl
  have hge : ∀ p ∈ listed, order ≤ p.1 := fun p hp =>
    effective_ge hA hC hB ((h.mem p.1 p.2).mp hp)
  cases hvalue : effective active committed base order with
  | none =>
    refine ⟨listed, by simp, fun _ => rfl, ascA, ascC, ascB, h.ascListed, fun o v => ?_⟩
    rw [h.mem]
    by_cases ho : order < o
    · rw [hafter o ho]
    have hle : o ≤ order := Nat.not_lt.mp ho
    rw [hnone o hle]
    refine ⟨fun heq => ?_, fun heq => by cases heq⟩
    have heqo : o = order := le_antisymm hle (hge _ ((h.mem o v).mpr heq))
    rw [heqo, hvalue] at heq
    cases heq
  | some value =>
    obtain ⟨rest, rfl⟩ := h.ascListed.cons_of_least ((h.mem order value).mpr hvalue) hge
    obtain ⟨hlt, hrest⟩ := pairwise_cons.mp h.ascListed
    refine ⟨rest, ?_, by simp, ascA, ascC, ascB, hrest, fun o v => ?_⟩
    · intro value' heq
      rw [some.inj heq]
    · by_cases ho : order < o
      · rw [hafter o ho, ← h.mem, mem_cons]
        refine ⟨fun hmem => .inr hmem, fun hmem => hmem.resolve_left fun heq => ?_⟩
        exact ho.ne' (congrArg Prod.fst heq)
      · rw [hnone o (Nat.not_lt.mp ho)]
        refine ⟨fun hmem => absurd (hlt _ hmem) ho, fun heq => by cases heq⟩

theorem Overlays.nil (h : Overlays [] [] [] listed) : listed = [] := by
  rw [eq_nil_iff_forall_not_mem]
  intro p hp
  have := (h.mem p.1 p.2).mp hp
  cases this

theorem take_nextIf (base : List (ℕ × Bytes)) (order limit : ℕ) {m : ℕ}
    {hit : Option (Option Bytes)} {t t' : ℕ}
    (hn : limit + 1 + t ≤ m + 1) (hle : t' ≤ t) (htomb : hit = some none → t' + 1 ≤ t) :
    ∃ n', (nextIf order (base.take (m + 1))).2 = (nextIf order base).2.take n' ∧
      ((hit.getD (nextIf order base).1).isSome → limit + t' ≤ n') ∧
      (hit.getD (nextIf order base).1 = none → limit + 1 + t' ≤ n') := by
  obtain ⟨-, hkeep, hdrop⟩ := nextIf_take order base m
  cases hbase : (nextIf order base).1 with
  | none => exact ⟨m + 1, hkeep hbase, fun _ => by omega, fun _ => by omega⟩
  | some value =>
    refine ⟨m, hdrop (by simp [hbase]), fun _ => by omega, fun hnone => ?_⟩
    cases hit with
    | none => cases hnone
    | some change =>
      have hchange : change = none := hnone
      have := htomb (by rw [hchange])
      omega

theorem mergeLoop_eq {steps limit : ℕ} (h : Overlays active committed base listed)
    (hsteps : active.length + committed.length + (base.take n).length ≤ steps)
    (hn : limit + (tombstones committed + tombstones active) ≤ n) :
    mergeLoop steps limit active committed (base.take n) = listed.take limit := by
  induction steps generalizing limit n active committed base listed with
  | zero =>
    cases limit with
    | zero => simp [mergeLoop]
    | succ limit =>
      obtain ⟨m, rfl⟩ : ∃ m, n = m + 1 := ⟨n - 1, by omega⟩
      have hactive : active = [] := length_eq_zero_iff.mp (by omega)
      have hcommitted : committed = [] := length_eq_zero_iff.mp (by omega)
      have hbase : base = [] := by
        have hzero : (base.take (m + 1)).length = 0 := by omega
        cases base with
        | nil => rfl
        | cons p base => simp at hzero
      subst hactive hcommitted hbase
      rw [h.nil]
      rfl
  | succ steps ih =>
    cases limit with
    | zero => simp [mergeLoop]
    | succ limit =>
      obtain ⟨m, rfl⟩ : ∃ m, n = m + 1 := ⟨n - 1, by omega⟩
      rw [mergeLoop, nextOrder_take]
      cases hnext : nextOrder active committed base with
      | none =>
        obtain ⟨rfl, rfl, rfl⟩ := nextOrder_eq_none hnext
        rw [h.nil]
        rfl
      | some order =>
        obtain ⟨hhits, hbaseHit, rest, hsome, hnone, hrest⟩ := h.consume hnext
        obtain ⟨htA, htA'⟩ := tombstones_nextIf active order
        obtain ⟨htC, htC'⟩ := tombstones_nextIf committed order
        have htomb : (nextIf order active).1.or (nextIf order committed).1 = some none →
            tombstones (nextIf order committed).2 + tombstones (nextIf order active).2 + 1 ≤
              tombstones committed + tombstones active := by
          intro hhit
          cases hA : (nextIf order active).1 with
          | none =>
            have := htC' (by simpa [hA] using hhit)
            omega
          | some change =>
            have := htA' (by simpa [hA] using hhit)
            omega
        obtain ⟨n', htake, hlimit, hlimit'⟩ := take_nextIf base order limit hn
          (Nat.add_le_add htC htA) htomb
        have hshrinks : (nextIf order active).2.length + (nextIf order committed).2.length +
            ((nextIf order base).2.take n').length ≤ steps := by
          have hheads := (nextOrder_eq_some ((nextOrder_take (n := m)).trans hnext)).1
          obtain ⟨hlA, hlA'⟩ := nextIf_length order active
          obtain ⟨hlC, hlC'⟩ := nextIf_length order committed
          obtain ⟨hlB, hlB'⟩ := nextIf_length order (base.take (m + 1))
          rw [← htake]
          rcases hheads with hhead | hhead | hhead
          · have := hlA' hhead
            omega
          · have := hlC' hhead
            omega
          · have := hlB' hhead
            omega
        have hfirst : (nextIf order (base.take (m + 1))).1 = (nextIf order base).1 :=
          (nextIf_take order base m).1
        simp only [htake, hfirst]
        have heffective : ((nextIf order active).1.or (nextIf order committed).1).getD
            (nextIf order base).1 = effective active committed base order := by
          rw [hhits, hbaseHit]
          rfl
        cases hvalue : effective active committed base order with
        | none =>
          rw [heffective, hvalue]
          rw [hnone hvalue]
          exact ih hrest hshrinks (hlimit' (heffective.trans hvalue))
        | some value =>
          rw [heffective, hvalue]
          rw [hsome value hvalue, take_succ_cons]
          refine congrArg ((order, value) :: ·) ?_
          exact ih hrest hshrinks (hlimit (by rw [heffective, hvalue]; rfl))

end

end HyperscaleVm.Kernel

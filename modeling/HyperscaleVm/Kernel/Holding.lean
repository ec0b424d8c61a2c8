import HyperscaleVm.Kernel.Solvency

/-!
# What a judged batch leaves held
-/

namespace HyperscaleVm.Kernel
open Library List
open AmountLedger

section

variable {σ : Type} [AmountLedger σ] {requests : List Request}

theorem mem_batchOn {key : SubstateKey} {p : TxHash × ℕ} :
    p ∈ batchOn requests key ↔ (p.1, key, p.2) ∈ requests := by
  unfold batchOn
  rw [mem_filterMap]
  constructor
  · rintro ⟨⟨tx, key', n⟩, hr, hsome⟩
    dsimp only at hsome
    split at hsome
    · rename_i hkey
      cases hsome
      rwa [hkey] at hr
    · cases hsome
  · intro hr
    exact ⟨_, hr, by simp⟩

theorem map_fst_judgeOrdered {remaining : ℕ} {requests : List (TxHash × ℕ)} :
    (judgeOrdered remaining requests).map Prod.fst = requests.map Prod.fst := by
  induction requests generalizing remaining with
  | nil => rfl
  | cons p requests ih =>
    obtain ⟨tx, n⟩ := p
    simp only [judgeOrdered]
    split <;> simp [ih]

theorem mem_judge (free : ℕ) {batch : List (TxHash × ℕ)} {tx : TxHash} :
    (∃ verdict, (tx, verdict) ∈ judge free batch) ↔ ∃ n, (tx, n) ∈ batch := by
  have hmap : tx ∈ (judge free batch).map Prod.fst ↔ tx ∈ batch.map Prod.fst := by
    unfold judge canonical
    rw [map_fst_judgeOrdered, mem_map, mem_map]
    simp only [mem_insertionSort]
  simpa using hmap

theorem judgeAndHold_induction {P : σ → Prop} {s : σ}
    (hnote : ∀ (s : σ) (r : Request), r ∈ requests → P s → P (note s (.point r.2.1) .reserve))
    (hhold : ∀ (s : σ) (r : Request), r ∈ requests → ∀ n, P s → P (setHold s r.2.1 r.1 (some n)))
    (hs : P s) : P (judgeAndHold s requests).1 := by
  have hnoted : ∀ (rest : List Request) (s : σ) (seen : List (TxHash × SubstateKey)),
      (∀ r ∈ rest, r ∈ requests) → P s → P (noteRequests s seen rest).1 := by
    intro rest
    induction rest with
    | nil => exact fun _ _ _ hs => hs
    | cons r rest ih =>
      obtain ⟨tx, key, n⟩ := r
      intro s seen hmem hs
      simp only [noteRequests]
      split
      · exact hs
      · exact ih _ _ (fun r hr => hmem r (mem_cons_of_mem _ hr))
          (hnote s _ (hmem _ mem_cons_self) hs)
  have hheld : ∀ (key : SubstateKey) (verdicts : List (TxHash × Feasibility)) (s : σ),
      (∀ v ∈ verdicts, ∃ n, (v.1, key, n) ∈ requests) → P s →
        P (holdFeasible s key (batchOn requests key) verdicts) := by
    intro key verdicts
    induction verdicts with
    | nil => exact fun _ _ hs => hs
    | cons v verdicts ih =>
      obtain ⟨tx, verdict⟩ := v
      intro s hmem hs
      obtain ⟨n, hn⟩ := hmem _ mem_cons_self
      have hrest := fun v hv => hmem v (mem_cons_of_mem _ hv)
      cases verdict with
      | feasible => exact ih _ hrest (hhold s _ hn _ hs)
      | infeasible => exact ih _ hrest hs
  have hjudged : ∀ (keys : List SubstateKey) (s : σ)
      (judged : List ((TxHash × SubstateKey) × Feasibility)), P s →
        P (judgeKeys requests s keys judged).1 := by
    intro keys
    induction keys with
    | nil => exact fun _ _ hs => hs
    | cons key keys ih =>
      intro s judged hs
      simp only [judgeKeys]
      split
      · exact hs
      · rename_i free hfree
        refine ih _ _ (hheld key _ s (fun v hv => ?_) hs)
        obtain ⟨n, hn⟩ := (mem_judge _).mp ⟨v.2, hv⟩
        exact ⟨n, mem_batchOn.mp hn⟩
  have hall := hnoted requests s [] (fun _ hr => hr) hs
  unfold judgeAndHold
  split
  · rename_i heq
    rwa [heq] at hall
  · rename_i heq
    rw [heq] at hall
    exact hjudged _ _ _ hall

end

section

variable {σ : Type} [AmountLedger σ] [LawfulAmountLedger σ] {s s' : σ} {key : SubstateKey}
  {tx : TxHash} {key' : SubstateKey}

theorem heldReservation_setHold {tx' : TxHash} {held : Option ℕ} :
    heldReservation (setHold s key' tx' held) key tx =
      if key' = key ∧ tx' = tx then held else heldReservation s key tx := by
  unfold heldReservation
  rw [LawfulAmountLedger.view_setHold]
  unfold LedgerView.setHold changeHold
  dsimp only
  by_cases hkey : key' = key
  · subst hkey
    rw [Function.update_self]
    cases held <;> by_cases htx : tx' = tx <;> simp [htx]
  · rw [Function.update_of_ne (Ne.symm hkey)]
    simp [hkey]

variable {batch : List (TxHash × ℕ)} {verdicts : List (TxHash × Feasibility)} {n : ℕ}

theorem heldReservation_holdFeasible (hnodup : (batch.map Prod.fst).Nodup)
    (hfeasible : ∀ v ∈ verdicts, v.2 = .feasible) (hmem : (tx, n) ∈ batch) :
    heldReservation (holdFeasible s key batch verdicts) key tx =
      if tx ∈ verdicts.map Prod.fst then some n else heldReservation s key tx := by
  have hfind : (batch.find? fun p => p.1 = tx) = some (tx, n) := by
    cases hfound : batch.find? fun p => p.1 = tx with
    | none =>
      rw [find?_eq_none] at hfound
      exact absurd (by simp) (hfound _ hmem)
    | some q =>
      have hfst : q.1 = tx := by simpa using find?_some hfound
      rw [inj_on_of_nodup_map hnodup (mem_of_find?_eq_some hfound) hmem hfst]
  induction verdicts generalizing s with
  | nil => simp [holdFeasible]
  | cons v verdicts ih =>
    obtain ⟨tx', verdict⟩ := v
    obtain rfl : verdict = .feasible := hfeasible _ mem_cons_self
    have hrest :=
      ih (s := setHold s key tx' (some (((batch.find? fun p => p.1 = tx').map Prod.snd).getD 0)))
      (fun v hv => hfeasible v (mem_cons_of_mem _ hv))
    refine hrest.trans ?_
    rw [heldReservation_setHold]
    by_cases htx : tx' = tx
    · subst htx
      simp [hfind]
    · have hcons : tx ∈ ((tx', Feasibility.feasible) :: verdicts).map Prod.fst ↔
          tx ∈ verdicts.map Prod.fst := by
        rw [map_cons, mem_cons, or_iff_right (Ne.symm htx)]
      simp only [htx, and_false, if_false, hcons]

theorem heldReservation_holdFeasible_ne (hkey : key' ≠ key) :
    heldReservation (holdFeasible s key' batch verdicts) key tx = heldReservation s key tx := by
  have h : Untouched key s (holdFeasible s key' batch verdicts) := untouched_holdFeasible hkey
  unfold heldReservation
  rw [h.2]

theorem judgeKeys_holds {requests : List Request}
    (hnodup : ∀ key, ((batchOn requests key).map Prod.fst).Nodup) {n : ℕ}
    (hmem : (tx, key, n) ∈ requests) :
    ∀ {keys : List SubstateKey} {s : σ} {judged verdicts}, keys.Nodup →
      judgeKeys requests s keys judged = (s', .ok verdicts) → (∀ v ∈ verdicts, v.2 = .feasible) →
      (∀ v ∈ judged, v ∈ verdicts) ∧ heldReservation s' key tx =
        if key ∈ keys then some n else heldReservation s key tx
  | [], s, judged, verdicts, _, h, _ => by
    cases h
    exact ⟨fun _ hv => hv, by simp⟩
  | key' :: keys, s, judged, verdicts, hkeys, h, hfeasible => by
    obtain ⟨hfresh, hkeys⟩ := nodup_cons.mp hkeys
    simp only [judgeKeys] at h
    split at h
    · cases h
    rename_i free hfree
    obtain ⟨hsub, hheld⟩ := judgeKeys_holds hnodup hmem hkeys h hfeasible
    refine ⟨fun v hv => hsub v (mem_append_left _ hv), hheld.trans ?_⟩
    by_cases hkey : key' = key
    · subst hkey
      have hall : ∀ v ∈ judge free (batchOn requests key'), v.2 = .feasible := by
        intro v hv
        exact hfeasible _ (hsub _ (mem_append_right _ (mem_map.mpr ⟨v, hv, rfl⟩)))
      have hbatch : (tx, n) ∈ batchOn requests key' := mem_batchOn.mpr hmem
      obtain ⟨verdict, hverdict⟩ := (mem_judge free).mpr ⟨n, hbatch⟩
      rw [if_neg hfresh, heldReservation_holdFeasible (hnodup key') hall hbatch,
        if_pos (mem_map.mpr ⟨_, hverdict, rfl⟩), if_pos mem_cons_self]
    · rw [heldReservation_holdFeasible_ne hkey]
      simp [Ne.symm hkey]

variable {requests : List Request}

theorem mem_requestedKeys {key : SubstateKey} :
    key ∈ requestedKeys requests ↔ ∃ r ∈ requests, r.2.1 = key := by
  unfold requestedKeys
  rw [Std.ExtTreeSet.mem_toList]
  have hfold : ∀ (rest : List Request) (keys : Std.ExtTreeSet SubstateKey),
      key ∈ rest.foldl (fun keys request => keys.insert request.2.1) keys ↔
        key ∈ keys ∨ ∃ r ∈ rest, r.2.1 = key := by
    intro rest
    induction rest with
    | nil => simp
    | cons r rest ih =>
      intro keys
      rw [foldl_cons, ih]
      simp only [Std.ExtTreeSet.mem_insert, Std.compare_eq_iff_eq, mem_cons, exists_eq_or_imp]
      tauto
  rw [hfold]
  simp

theorem nodup_requestedKeys : (requestedKeys requests).Nodup := by
  unfold requestedKeys
  rw [nodup_iff_pairwise_ne]
  exact Std.ExtTreeSet.distinct_toList.imp fun h he => h (Std.compare_eq_iff_eq.mpr he)

theorem judgeAndHold_holds {verdicts : List ((TxHash × SubstateKey) × Feasibility)}
    (h : judgeAndHold s requests = (s', .ok verdicts)) (hfeasible : ∀ v ∈ verdicts, v.2 = .feasible)
    (hmem : (tx, key, n) ∈ requests) : heldReservation s' key tx = some n := by
  unfold judgeAndHold at h
  split at h
  · cases h
  rename_i s₁ heq
  have hok := (noteRequests_ok s [] requests (by rw [heq])).1
  have hheld := (judgeKeys_holds (nodup_batchOn hok) hmem nodup_requestedKeys h hfeasible).2
  rw [hheld, if_pos]
  exact mem_requestedKeys.mpr ⟨_, hmem, rfl⟩

end

end HyperscaleVm.Kernel

import HyperscaleVm.Kernel.Holding
import HyperscaleVm.Library.KeyedFold

/-!
# Requests in any order (`modes.rs`, `judge`; `ledger.rs`, `judge_and_hold`)

Requests are judged by ascending transaction hash whatever order they came in, and each is
granted what the granted ones below it have left.
-/

namespace HyperscaleVm.Kernel
open AmountLedger List
open Library

def accepted (available : ℕ) (requests : List (TxHash × ℕ)) : List (TxHash × ℕ) :=
  requests.filter fun r => decide ((r.1, Feasibility.feasible) ∈ judge available requests)

def amounts (requests : List (TxHash × ℕ)) : ℕ := (requests.map Prod.snd).sum

def acceptedBelow (available : ℕ) (requests : List (TxHash × ℕ)) (tx : TxHash) : ℕ :=
  amounts ((accepted available requests).filter fun r => r.1 < tx)

instance : Std.Total Precedes := ⟨fun a b => by unfold Precedes; omega⟩

instance : IsTrans (ℕ × ℕ) Precedes := ⟨fun a b c hab hbc => by unfold Precedes at *; omega⟩

theorem Precedes.antisymm {a b : ℕ × ℕ} (hab : Precedes a b) (hba : Precedes b a) : a = b := by
  unfold Precedes at hab hba
  exact Prod.ext (by omega) (by omega)

theorem canonical_precedes (requests : List (TxHash × ℕ)) :
    (canonical requests).Pairwise Precedes :=
  pairwise_insertionSort Precedes requests

variable {requests : List (TxHash × ℕ)} {arrived : List (TxHash × ℕ)}

theorem canonical_perm (h : arrived.Perm requests) : canonical arrived = canonical requests := by
  refine List.Perm.eq_of_pairwise (fun a b _ _ => Precedes.antisymm) (canonical_precedes arrived)
    (canonical_precedes requests) ?_
  exact (perm_insertionSort _ arrived).trans (h.trans (perm_insertionSort _ requests).symm)

theorem judge_perm (available : ℕ)
    (h : arrived.Perm requests) : judge available arrived = judge available requests := by
  unfold judge
  rw [canonical_perm h]

theorem canonical_sorted (h : (requests.map Prod.fst).Nodup) :
    (canonical requests).Pairwise fun a b => a.1 < b.1 := by
  have hperm : (canonical requests).Perm requests := perm_insertionSort _ _
  have hnodup : ((canonical requests).map Prod.fst).Nodup := (hperm.map Prod.fst).nodup_iff.mpr h
  rw [nodup_iff_pairwise_ne, pairwise_map] at hnodup
  refine ((canonical_precedes requests).and hnodup).imp fun {a b} hboth => ?_
  rcases hboth.1 with hlt | heq
  · exact hlt
  · exact absurd heq.1 hboth.2

section Ordered

variable {remaining : ℕ} {requests : List (TxHash × ℕ)}

def answered (remaining : ℕ) (requests : List (TxHash × ℕ)) : List (TxHash × ℕ) :=
  requests.filter fun r => decide ((r.1, Feasibility.feasible) ∈ judgeOrdered remaining requests)

theorem fst_mem_of_judged {v : TxHash × Feasibility} (h : v ∈ judgeOrdered remaining requests) :
    ∃ r ∈ requests, r.1 = v.1 := by
  have hmem : v.1 ∈ (judgeOrdered remaining requests).map Prod.fst := mem_map.mpr ⟨v, h, rfl⟩
  rw [map_fst_judgeOrdered] at hmem
  exact mem_map.mp hmem

variable {tx : TxHash} {n : ℕ}

theorem answered_cons (hfirst : ∀ r ∈ requests, tx < r.1) :
    answered remaining ((tx, n) :: requests) =
      if n ≤ remaining then (tx, n) :: answered (remaining - n) requests
        else answered remaining requests := by
  have hrest (verdict : Feasibility) (left : ℕ) :
      (requests.filter fun r => decide ((r.1, Feasibility.feasible) ∈
        (tx, verdict) :: judgeOrdered left requests)) = answered left requests := by
    refine filter_congr fun r hr => ?_
    have hne : r.1 ≠ tx := (hfirst r hr).ne'
    simp [hne]
  unfold answered
  simp only [judgeOrdered]
  split
  · rw [filter_cons_of_pos (by simp), hrest]
    rfl
  have hnot : (tx, Feasibility.feasible) ∉ judgeOrdered remaining requests := by
    intro hmem
    obtain ⟨r, hr, heq⟩ := fst_mem_of_judged hmem
    exact (hfirst r hr).ne' heq
  rw [filter_cons_of_neg (by simpa using hnot), hrest]
  rfl

theorem amounts_answered_le (hsorted : requests.Pairwise fun a b => a.1 < b.1) :
    amounts (answered remaining requests) ≤ remaining := by
  induction requests generalizing remaining with
  | nil => simp [answered, amounts]
  | cons r requests ih =>
    obtain ⟨tx, n⟩ := r
    obtain ⟨hfirst, hsorted⟩ := pairwise_cons.mp hsorted
    rw [answered_cons hfirst]
    split
    · rename_i hfits
      have hrest : amounts (answered (remaining - n) requests) ≤ remaining - n := ih hsorted
      simp only [amounts, map_cons, sum_cons] at hrest ⊢
      omega
    · exact ih hsorted

theorem mem_answered_iff (hsorted : requests.Pairwise fun a b => a.1 < b.1)
    (hmem : (tx, n) ∈ requests) : (tx, n) ∈ answered remaining requests ↔
      n + amounts ((answered remaining requests).filter fun r => r.1 < tx) ≤ remaining := by
  induction requests generalizing remaining with
  | nil => cases hmem
  | cons r requests ih =>
    obtain ⟨tx', n'⟩ := r
    obtain ⟨hfirst, hsorted⟩ := pairwise_cons.mp hsorted
    have hsub : ∀ left, ∀ r ∈ answered left requests, r ∈ requests :=
      fun left r hr => (mem_filter.mp hr).1
    rw [answered_cons hfirst]
    rcases mem_cons.mp hmem with heq | hmem
    · -- nothing is below the first
      cases heq
      have hnone : ∀ left, (answered left requests).filter (fun r => r.1 < tx) = [] := fun left =>
        filter_eq_nil_iff.mpr fun r hr => by simpa using (hfirst r (hsub left r hr)).le
      split
      · rename_i hfits
        simp [hnone, amounts, hfits]
      · rename_i hshort
        have hnot : (tx, n) ∉ answered remaining requests :=
          fun hr => (hfirst _ (hsub _ _ hr)).ne rfl
        simp [hnone, amounts, hshort, hnot]
    · have hlt : tx' < tx := hfirst _ hmem
      split
      · rename_i hfits
        have hih : (tx, n) ∈ answered (remaining - n') requests ↔ _ := ih hsorted hmem
        rw [mem_cons, Prod.mk.injEq, filter_cons_of_pos (by simpa using hlt)]
        simp only [amounts, map_cons, sum_cons] at hih ⊢
        simp only [hlt.ne', false_and, false_or, hih]
        omega
      · exact ih hsorted hmem

end Ordered

theorem accepted_perm (available : ℕ) (requests : List (TxHash × ℕ)) :
    (accepted available requests).Perm (answered available (canonical requests)) :=
  ((perm_insertionSort _ requests).symm.filter _)

variable {tx : TxHash} {n : ℕ}

theorem accepted_iff (available : ℕ)
    (hnodup : (requests.map Prod.fst).Nodup) (hmem : (tx, n) ∈ requests) :
    (tx, Feasibility.feasible) ∈ judge available requests ↔
      n + acceptedBelow available requests tx ≤ available := by
  have hsorted := canonical_sorted hnodup
  have hmem' : (tx, n) ∈ canonical requests := (mem_insertionSort _).mpr hmem
  have hiff : (tx, n) ∈ answered available (canonical requests) ↔ _ :=
    mem_answered_iff hsorted hmem'
  have hbelow : acceptedBelow available requests tx =
      amounts ((answered available (canonical requests)).filter fun r => r.1 < tx) :=
    (((accepted_perm available requests).filter _).map Prod.snd).sum_nat
  rw [hbelow, ← hiff]
  unfold answered
  rw [mem_filter, and_iff_right hmem', decide_eq_true_iff]
  rfl

theorem infeasible_iff (available : ℕ)
    (hnodup : (requests.map Prod.fst).Nodup) (hmem : (tx, n) ∈ requests) :
    (tx, Feasibility.infeasible) ∈ judge available requests ↔
      (tx, Feasibility.feasible) ∉ judge available requests := by
  have hsame : (judge available requests).map Prod.fst = (canonical requests).map Prod.fst :=
    map_fst_judgeOrdered
  have hunique : ((judge available requests).map Prod.fst).Nodup := by
    rw [hsame]
    exact ((perm_insertionSort _ requests).map Prod.fst).nodup_iff.mpr hnodup
  constructor
  · intro hinfeasible hfeasible
    cases inj_on_of_nodup_map hunique hinfeasible hfeasible rfl
  · intro hnot
    obtain ⟨verdict, hverdict⟩ := (mem_judge available).mpr ⟨n, hmem⟩
    cases verdict with
    | feasible => exact absurd hverdict hnot
    | infeasible => exact hverdict

theorem amounts_accepted_le (available : ℕ) (hnodup : (requests.map Prod.fst).Nodup) :
    amounts (accepted available requests) ≤ available := by
  have hsum :
    amounts (accepted available requests) = amounts (answered available (canonical requests)) :=
    ((accepted_perm available requests).map Prod.snd).sum_nat
  rw [hsum]
  exact amounts_answered_le (canonical_sorted hnodup)

section Ledger

variable {σ : Type} [AmountLedger σ] {s s' : σ} {requests : List Request} {key : SubstateKey}

theorem available_congr (hcell : (view s').cell key = (view s).cell key)
    (hholds : (view s').holds key = (view s).holds key)
    (hfees : (view s').feeHolds = (view s).feeHolds)
    (hwithheld : (view s').withheldCredits = (view s).withheldCredits) :
    available s' key = available s key := by
  unfold available amount unpromised heldTotal
  rw [hcell, hholds, hfees, hwithheld]

theorem available_lt {free : ℕ} (h : available s key = .ok free) : free < AMOUNT_BOUND := by
  obtain ⟨standing, hstanding, h⟩ := bind_ok.mp h
  have hlt := amount_lt hstanding
  obtain ⟨-, rfl⟩ := unpromised_ok h
  omega

variable [LawfulAmountLedger σ]

theorem available_holdFeasible {key' : SubstateKey} (hne : key' ≠ key) {batch : List (TxHash × ℕ)}
    {verdicts : List (TxHash × Feasibility)} :
    available (holdFeasible s key' batch verdicts) key = available s key := by
  induction verdicts generalizing s with
  | nil => rfl
  | cons v verdicts ih =>
    obtain ⟨tx, verdict⟩ := v
    cases verdict with
    | infeasible => exact ih
    | feasible =>
      refine ih.trans (available_congr ?_ ?_ ?_ ?_) <;>
        simp [LedgerView.setHold, Function.update_of_ne hne.symm]

theorem view_noteRequests (s : σ) {seen : List (TxHash × SubstateKey)}
    (hfresh : ∀ r ∈ requests, (r.1, r.2.1) ∉ seen)
    (hnodup : (requests.map fun r => (r.1, r.2.1)).Nodup) :
    (noteRequests s seen requests).2 = .ok () ∧ view (noteRequests s seen requests).1 = view s := by
  induction requests generalizing s seen with
  | nil => exact ⟨rfl, rfl⟩
  | cons r requests ih =>
    obtain ⟨tx, key, n⟩ := r
    obtain ⟨hnew, hnodup⟩ := nodup_cons.mp hnodup
    have hnot : ¬seen.contains (tx, key) = true := by simpa using hfresh _ mem_cons_self
    simp only [noteRequests, if_neg hnot]
    have hrest : ∀ r ∈ requests, (r.1, r.2.1) ∉ (tx, key) :: seen := by
      intro r hr hin
      rcases mem_cons.mp hin with heq | hin
      · exact hnew (mem_map.mpr ⟨r, hr, heq⟩)
      · exact hfresh r (mem_cons_of_mem _ hr) hin
    obtain ⟨hok, hview⟩ := ih (note s (.point key) .reserve) hrest hnodup
    exact ⟨hok, hview.trans (LawfulAmountLedger.view_note s _ _)⟩

def judgeCell (s : σ) (requests : List Request)
    (judged : List ((TxHash × SubstateKey) × Feasibility))
    (key : SubstateKey) : Except StoreError (List ((TxHash × SubstateKey) × Feasibility)) := do
  let free ← available s key
  return judged ++ (judge free (batchOn requests key)).map fun (tx, verdict) => ((tx, key), verdict)

theorem judgeKeys_eq {keys : List SubstateKey} (hkeys : keys.Nodup)
    (judged : List ((TxHash × SubstateKey) × Feasibility)) :
    (judgeKeys requests s keys judged).2 = keys.foldlM (judgeCell s requests) judged := by
  induction keys generalizing s judged with
  | nil => rfl
  | cons key keys ih =>
    obtain ⟨hfresh, hkeys⟩ := nodup_cons.mp hkeys
    rw [foldlM_cons]
    simp only [judgeKeys]
    unfold judgeCell
    cases hfree : available s key with
    | error error => rfl
    | ok free =>
      refine (ih hkeys _).trans ?_
      -- what the other cells have available is as it was
      refine foldlM_congr (fun judged' key' hkey' => ?_) _
      have hne : key ≠ key' := by
        rintro rfl
        exact hfresh hkey'
      unfold judgeCell
      rw [available_holdFeasible hne]

theorem judgeAndHold_eq (s : σ) (hnodup : (requests.map fun r => (r.1, r.2.1)).Nodup) :
    (judgeAndHold s requests).2 = (requestedKeys requests).foldlM (judgeCell s requests) [] := by
  have hfresh : ∀ r ∈ requests, (r.1, r.2.1) ∉ [] := fun _ _ => not_mem_nil
  obtain ⟨hok, hview⟩ := view_noteRequests s hfresh hnodup
  unfold judgeAndHold
  split
  · rename_i heq
    rw [heq] at hok
    cases hok
  · rename_i noted heq
    rw [heq] at hview
    rw [judgeKeys_eq nodup_requestedKeys]
    refine foldlM_congr (fun judged key _ => ?_) _
    unfold judgeCell
    have hsame : available noted key = available s key := by
      apply available_congr <;> rw [hview]
    rw [hsame]

end Ledger

theorem judgeCell_foldlM {σ : Type} [AmountLedger σ] {s : σ} {requests : List Request}
    {keys : List SubstateKey} {judged verdicts : List ((TxHash × SubstateKey) × Feasibility)}
    (h : keys.foldlM (judgeCell s requests) judged = .ok verdicts) :
    (∀ key ∈ keys, ∃ free, available s key = .ok free) ∧
    ∀ tx key verdict, ((tx, key), verdict) ∈ verdicts ↔ ((tx, key), verdict) ∈ judged ∨
      key ∈ keys ∧ ∃ free, available s key = .ok free ∧
        (tx, verdict) ∈ judge free (batchOn requests key) := by
  induction keys generalizing judged with
  | nil =>
    cases h
    simp
  | cons first keys ih =>
    rw [foldlM_cons] at h
    obtain ⟨next, hnext, h⟩ := bind_ok.mp h
    obtain ⟨free, hfree, hnext⟩ := bind_ok.mp hnext
    cases hnext
    obtain ⟨hrest, hverdicts⟩ := ih h
    refine ⟨fun key hkey => ?_, fun tx key verdict => ?_⟩
    · rcases mem_cons.mp hkey with rfl | hkey
      · exact ⟨free, hfree⟩
      · exact hrest key hkey
    · have hfirst : ((tx, key), verdict) ∈ (judge free (batchOn requests first)).map
          (fun (tx, verdict) => ((tx, first), verdict)) ↔
            key = first ∧ ∃ free, available s key = .ok free ∧
              (tx, verdict) ∈ judge free (batchOn requests key) := by
        rw [mem_map]
        constructor
        · rintro ⟨⟨tx', verdict'⟩, hmem, heq⟩
          cases heq
          exact ⟨rfl, free, hfree, hmem⟩
        · rintro ⟨rfl, free', hfree', hmem⟩
          obtain rfl := Except.ok.inj (hfree.symm.trans hfree')
          exact ⟨_, hmem, rfl⟩
      rw [hverdicts, mem_append, hfirst, mem_cons, or_and_right, or_assoc]

theorem requestedKeys_perm {arrived requests : List Request} (h : arrived.Perm requests) :
    requestedKeys arrived = requestedKeys requests := by
  have hset : ∀ rest : List Request, (requestedKeys rest).Pairwise fun a b => compare a b = .lt :=
    fun rest => Std.ExtTreeSet.ordered_toList
  refine List.Perm.eq_of_pairwise (fun a b _ _ hab hba => ?_) (hset arrived) (hset requests) ?_
  · exact absurd (hab.symm.trans (Std.OrientedCmp.gt_of_lt hba)) (by decide)
  · refine (perm_ext_iff_of_nodup nodup_requestedKeys nodup_requestedKeys).mpr fun key => ?_
    rw [mem_requestedKeys, mem_requestedKeys]
    simp only [h.mem_iff]

/-- Judging answers the same in whatever order requests come; each is granted exactly if it fits in
what is left by the granted ones of smaller hash; and the granted sum to no more than there is. On a
ledger the same holds cell by cell of what the cell has promised nobody. -/
theorem judging_ignores_arrival :
    (∀ (free : ℕ) (requests : List (TxHash × ℕ)), (requests.map Prod.fst).Nodup →
      (∀ arrived, arrived.Perm requests → judge free arrived = judge free requests) ∧
      (∀ tx n, (tx, n) ∈ requests →
        ((tx, .feasible) ∈ judge free requests ↔ n + acceptedBelow free requests tx ≤ free) ∧
        ((tx, .infeasible) ∈ judge free requests ↔ free < n + acceptedBelow free requests tx)) ∧
      amounts (accepted free requests) ≤ free) ∧
    ∀ (σ : Type) [AmountLedger σ] [LawfulAmountLedger σ] (s : σ) (requests : List Request),
      (requests.map fun r => (r.1, r.2.1)).Nodup →
      (∀ arrived, arrived.Perm requests →
        (judgeAndHold s arrived).2 = (judgeAndHold s requests).2) ∧
      ∀ verdicts, (judgeAndHold s requests).2 = .ok verdicts → ∀ tx key n, (tx, key, n) ∈ requests →
        ∃ free, available s key = .ok free ∧ free < AMOUNT_BOUND ∧
          amounts (accepted free (batchOn requests key)) ≤ free ∧
          (((tx, key), .feasible) ∈ verdicts ↔
            n + acceptedBelow free (batchOn requests key) tx ≤ free) ∧
          (((tx, key), .infeasible) ∈ verdicts ↔
            free < n + acceptedBelow free (batchOn requests key) tx) := by
  have hcell : ∀ (free : ℕ) (requests : List (TxHash × ℕ)), (requests.map Prod.fst).Nodup →
      ∀ tx n, (tx, n) ∈ requests →
        ((tx, .feasible) ∈ judge free requests ↔ n + acceptedBelow free requests tx ≤ free) ∧
        ((tx, .infeasible) ∈ judge free requests ↔ free < n + acceptedBelow free requests tx) := by
    intro free requests hnodup tx n hmem
    have hfits := accepted_iff free hnodup hmem
    refine ⟨hfits, ?_⟩
    rw [← Nat.not_le, ← hfits]
    exact infeasible_iff free hnodup hmem
  refine ⟨fun free requests hnodup =>
    ⟨fun arrived h => judge_perm free h, hcell free requests hnodup,
    amounts_accepted_le free hnodup⟩, ?_⟩
  intro σ _ _ s requests hnodup
  refine ⟨fun arrived h => ?_, fun verdicts hverdicts tx key n hmem => ?_⟩
  · rw [judgeAndHold_eq s hnodup, judgeAndHold_eq s ((h.map _).nodup_iff.mpr hnodup),
      requestedKeys_perm h]
    refine foldlM_congr (fun judged key _ => ?_) []
    have hbatch : (batchOn arrived key).Perm (batchOn requests key) := h.filterMap _
    unfold judgeCell
    simp only [judge_perm _ hbatch]
  · rw [judgeAndHold_eq s hnodup] at hverdicts
    obtain ⟨hall, hjudged⟩ := judgeCell_foldlM hverdicts
    have hkey : key ∈ requestedKeys requests := mem_requestedKeys.mpr ⟨_, hmem, rfl⟩
    obtain ⟨free, hfree⟩ := hall key hkey
    have hbatch : (tx, n) ∈ batchOn requests key := mem_batchOn.mpr hmem
    obtain ⟨hfits, hshort⟩ := hcell free _ (nodup_batchOn hnodup key) tx n hbatch
    have hon : ∀ verdict, ((tx, key), verdict) ∈ verdicts ↔
        (tx, verdict) ∈ judge free (batchOn requests key) := by
      intro verdict
      rw [hjudged]
      constructor
      · rintro (hnil | ⟨-, free', hfree', hin⟩)
        · cases hnil
        · rwa [Except.ok.inj (hfree.symm.trans hfree')]
      · exact fun hin => .inr ⟨hkey, free, hfree, hin⟩
    refine ⟨free, hfree, available_lt hfree,
      amounts_accepted_le free (nodup_batchOn hnodup key), ?_, ?_⟩
    · rw [hon, hfits]
    · rw [hon, hshort]

theorem two_arrivals_judged_alike :
    judge 10 [(2, 7), (1, 6), (3, 4)] = judge 10 [(3, 4), (2, 7), (1, 6)] ∧
      judge 10 [(3, 4), (2, 7), (1, 6)] = [(1, .feasible), (2, .infeasible), (3, .feasible)] :=
  ⟨(judging_ignores_arrival.1 10 [(3, 4), (2, 7), (1, 6)] (by decide)).1 _ (by decide), by decide⟩

end HyperscaleVm.Kernel

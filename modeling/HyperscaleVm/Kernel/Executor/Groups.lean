import HyperscaleVm.Kernel.ConflictGroups
import HyperscaleVm.Kernel.Executor.Screen

/-!
# Marker cells across the groups of a batch (`executor.rs`)

Every marker cell an entry may write stands in its declared set as an exclusive write, or the
screen refuses the batch. The groups run apart, so that is what keeps two writers of one marker
from running apart.
-/

namespace HyperscaleVm.Kernel
open Effects List Library
open Std (ExtTreeSet)

def BatchTx.Screened (entry : BatchTx) : Prop :=
  ViewsAgree entry.declaration ∧
    ∀ marker ∈ markerWrites entry, declaresExclusively entry marker.1 = true

theorem screenEntry_ok {seen seen' : ExtTreeSet TxHash} {entry : BatchTx} :
    screenEntry seen entry = .ok seen' ↔
      entry.tx ∉ seen ∧ entry.Screened ∧ seen.insert entry.tx = seen' := by
  simp only [screenEntry, seq_ok, require_ok, tryAll_ok, BatchTx.Screened, ViewsAgree,
    decide_eq_true_eq, Bool.not_eq_true', ← Bool.not_eq_true, ExtTreeSet.contains_iff_mem,
    and_assoc, pure, Except.pure, Except.ok.injEq]

theorem screened_iff {batch : List BatchTx} {seen : ExtTreeSet TxHash} :
    (∃ seen', batch.foldlM screenEntry seen = .ok seen') ↔ (∀ entry ∈ batch, entry.tx ∉ seen) ∧
      (batch.map BatchTx.tx).Nodup ∧ ∀ entry ∈ batch, entry.Screened := by
  induction batch generalizing seen with
  | nil => simp [pure, Except.pure]
  | cons entry batch ih =>
    have hstep : (∃ seen', (entry :: batch).foldlM screenEntry seen = .ok seen') ↔
        entry.tx ∉ seen ∧ entry.Screened ∧
          ∃ seen', batch.foldlM screenEntry (seen.insert entry.tx) = .ok seen' := by
      simp only [foldlM_cons, bind_ok, screenEntry_ok]
      grind
    rw [hstep, ih]
    simp only [map_cons, nodup_cons, mem_map, forall_mem_cons, ExtTreeSet.mem_insert,
      Std.compare_eq_iff_eq]
    grind

def declaredSets (runnable : List BatchTx) : List EffectSet :=
  runnable.map fun entry => entry.declaration.set

theorem getElem?_declaredSets {runnable : List BatchTx} {i : Fin (declaredSets runnable).length}
    {entry : BatchTx} (h : runnable[i.1]? = some entry) :
    (declaredSets runnable).get i = entry.declaration.set := by
  have hset : (declaredSets runnable)[i.1]? = some entry.declaration.set := by
    simp [declaredSets, h]
  rw [get_eq_getElem, (List.getElem?_eq_some_iff.mp hset).2]

/-- The screen passes exactly the batches of distinct transactions it passes one by one, and of
what it passed, whichever part runs, all who write one marker cell run in one group. -/
theorem marker_writers_run_together (batch : List BatchTx) :
    (screenBatch batch = .ok () ↔
      (batch.map BatchTx.tx).Nodup ∧ ∀ entry ∈ batch, entry.Screened) ∧
    (screenBatch batch = .ok () → ∀ runnable ⊆ batch, ∀ (i j : Fin (declaredSets runnable).length)
      (entry entry' : BatchTx) (key : SubstateKey),
      runnable[i.1]? = some entry → runnable[j.1]? = some entry' →
      key ∈ (markerWrites entry).map Prod.fst → key ∈ (markerWrites entry').map Prod.fst →
      ∃ g ∈ conflictGroups (declaredSets runnable), i ∈ g ∧ j ∈ g) := by
  have hscreen : screenBatch batch = .ok () ↔
      (batch.map BatchTx.tx).Nodup ∧ ∀ entry ∈ batch, entry.Screened := by
    simpa [screenBatch, map_ok] using @screened_iff batch ∅
  refine ⟨hscreen, fun hpassed runnable hruns i j entry entry' key hi hj hkey hkey' => ?_⟩
  -- an exclusive write of the cell stands in the set of each
  have hdeclares : ∀ (k : Fin (declaredSets runnable).length) (entry : BatchTx),
      runnable[k.1]? = some entry → key ∈ (markerWrites entry).map Prod.fst →
      ⟨.point key, .write .both⟩ ∈ ((declaredSets runnable).get k).iter := by
    intro k entry hk hkey
    obtain ⟨marker, hmarker, rfl⟩ := mem_map.mp hkey
    have hmem : entry ∈ batch := hruns (mem_of_getElem? hk)
    have hexclusive := ((hscreen.mp hpassed).2 entry hmem).2 marker hmarker
    rw [getElem?_declaredSets hk]
    exact EffectSet.mem_iter.mpr hexclusive
  have hconflict : EntriesConflict (declaredSets runnable) i j := by
    refine ⟨_, hdeclares i entry hi hkey, _, hdeclares j entry' hj hkey', ?_⟩
    simp [conflicts, targetsOverlap, compatible, Mode.kind]
  have hsame := (components_same_iff _ i j).mpr (.single hconflict)
  exact ⟨_, mem_map.mpr ⟨_, root_group i, rfl⟩, by simp, by simpa using hsame.symm⟩

def claimCell : SubstateKey := ⟨⟨1, .component⟩, 3⟩

def claimants : List BatchTx := [1, 2].map fun tx =>
  ⟨tx, declaring [⟨⟨.point claimCell, .write .both⟩, none, none, none⟩], [], [claimCell], [], []⟩

theorem claimants_run_together : screenBatch claimants = .ok () ∧
    ∃ g ∈ conflictGroups (declaredSets claimants), ⟨0, Nat.two_pos⟩ ∈ g ∧
      ⟨1, Nat.one_lt_two⟩ ∈ g := by
  have hscreened : passes (screenBatch claimants) (fun _ => true) = true := by decide +kernel
  obtain ⟨⟨⟩, hpassed, -⟩ := passes_iff.mp hscreened
  exact ⟨hpassed, (marker_writers_run_together claimants).2 hpassed claimants (Subset.refl _) _ _
    _ _ claimCell rfl rfl (mem_singleton.mpr rfl) (mem_singleton.mpr rfl)⟩

end HyperscaleVm.Kernel

import HyperscaleVm.Kernel.MergedScan
import HyperscaleVm.Kernel.Solvency

/-!
# The overlay refines one plain store

Collapsing the layers onto the store the base answers for commutes with every
operation, so an overlay answers at each point what a plain store does that made
the operations surviving there.
-/

namespace HyperscaleVm.Kernel
open AmountLedger List Library Layer LedgerOp OverlayStore
open OverlayStore
open Std (ExtTreeMap)

section

variable {β : Type} {entries : ExtTreeMap EntryKey β} {owner : Address} {collection lo hi : ℕ}

theorem entryKey_lt {n n' : ℕ} :
    (⟨owner, collection, n⟩ : EntryKey) < ⟨owner, collection, n'⟩ ↔ n < n' := by
  change EntryKey.bytes _ < EntryKey.bytes _ ↔ _
  simp [EntryKey.bytes, Address.bytes, cons_lt_cons_iff]

theorem ascends_scan : Ascends (scan entries owner collection lo hi) := by
  unfold Ascends scan
  rw [pairwise_filterMap]
  have hsorted := sorted_keys entries
  rw [pairwise_map] at hsorted
  refine hsorted.imp ?_
  rintro ⟨⟨o, c, n⟩, v⟩ ⟨⟨o', c', n'⟩, v'⟩ hlt p hp q hq
  simp only [Option.ite_none_right_eq_some, Option.some.injEq] at hp hq
  obtain ⟨⟨rfl, rfl, -⟩, rfl⟩ := hp
  obtain ⟨⟨rfl, rfl, -⟩, rfl⟩ := hq
  exact entryKey_lt.mp hlt

variable {order : ℕ}

theorem mem_scan {value : β} : (order, value) ∈ scan entries owner collection lo hi ↔
      lo ≤ order ∧ order ≤ hi ∧ entries[(⟨owner, collection, order⟩ : EntryKey)]? = some value := by
  unfold scan
  rw [mem_filterMap]
  constructor
  · rintro ⟨⟨⟨o, c, n⟩, v⟩, hmem, hp⟩
    simp only [Option.ite_none_right_eq_some, Option.some.injEq, Prod.mk.injEq] at hp
    obtain ⟨⟨rfl, rfl, hlo, hhi⟩, rfl, rfl⟩ := hp
    rw [ExtTreeMap.mem_toList_iff_getElem?_eq_some] at hmem
    exact ⟨hlo, hhi, hmem⟩
  · rintro ⟨hlo, hhi, hget⟩
    refine ⟨(⟨owner, collection, order⟩, value), ?_, by simp [hlo, hhi]⟩
    rw [ExtTreeMap.mem_toList_iff_getElem?_eq_some]
    exact hget

theorem lookup_scan : (scan entries owner collection lo hi).lookup order =
    if lo ≤ order ∧ order ≤ hi then entries[(⟨owner, collection, order⟩ : EntryKey)]?
      else none := by
  refine Option.ext fun value => ?_
  rw [lookup_eq_some_iff ascends_scan, mem_scan]
  by_cases h : lo ≤ order ∧ order ≤ hi
  · simp [h]
  · rw [if_neg h]
    simp only [reduceCtorEq, iff_false]
    exact fun h' => h ⟨h'.1, h'.2.1⟩

end

variable {o : OverlayStore} {m : MemoryStore}

theorem mergedEntries_eq (hbase : o.base = m.toBaseline)
    (owner : Address) (collection lo hi limit : ℕ) : o.mergedEntries owner collection lo hi limit =
      (o.collapseOnto m).entriesInRange owner collection lo hi limit := by
  unfold mergedEntries MemoryStore.entriesInRange
  by_cases hlo : lo > hi
  · simp [hlo]
  by_cases hlimit : limit = 0
  · simp [hlimit]
  simp only [hlo, hlimit, or_self, if_false]
  have hrun : ∀ limit, o.base.entriesInRange owner collection lo hi limit =
      (scan m.entries owner collection lo hi).take limit := by
    intro limit
    rw [hbase]
    exact if_neg hlo
  rw [hrun]
  refine mergeLoop_eq ⟨ascends_scan, ascends_scan, ascends_scan, ascends_scan, ?_⟩ le_rfl le_rfl
  intro order value
  rw [mem_scan]
  unfold effective
  simp only [lookup_scan, collapseOnto, applyTo, getElem?_applyChanges]
  by_cases h : lo ≤ order ∧ order ≤ hi
  · simp only [h, true_and, and_self, if_true]
    cases o.active.entries[(⟨owner, collection, order⟩ : EntryKey)]? <;> simp
  · simp only [h, if_false]
    refine ⟨fun h' => absurd ⟨h'.1, h'.2.1⟩ h, fun h' => ?_⟩
    cases h'

section

variable {o : OverlayStore} {m : MemoryStore}

variable (q r : ExtTreeMap SubstateKey (List DeltaOp))

theorem getElem?_extendQueues (key : SubstateKey) :
    (extendQueues q r)[key]? =
      (r[key]?.map fun ops => some (q[key]?.getD [] ++ ops)).getD q[key]? := by
  rw [extendQueues, getElem?_foldl_toList (g := fun ops old => some (old.getD [] ++ ops))]
  intro q key' ops key''
  by_cases h : key' = key'' <;> simp [pushDelta, h]

theorem extendQueues_extendQueues (q r r' : ExtTreeMap SubstateKey (List DeltaOp)) :
    extendQueues q (extendQueues r r') = extendQueues (extendQueues q r) r' := by
  ext key ops
  simp only [getElem?_extendQueues]
  cases r'[key]? <;> cases r[key]? <;> simp

theorem extendQueues_pushDelta (key : SubstateKey) (ops : List DeltaOp) :
    extendQueues q (pushDelta r key ops) = pushDelta (extendQueues q r) key ops := by
  ext key' ops'
  rw [getElem?_extendQueues]
  by_cases h : key = key'
  · subst h
    simp only [pushDelta, getElem?_insert_eq, if_true, Option.map_some, Option.getD_some,
      getElem?_extendQueues]
    cases r[key]? <;> simp
  · simp only [pushDelta, getElem?_insert_eq, h, if_false, getElem?_extendQueues]

theorem view_collapseOnto (hbase : o.base = m.toBaseline) : (o.collapseOnto m).view = o.view := by
  have hledger : o.base.ledger = m.view := congrArg Baseline.ledger hbase
  unfold MemoryStore.view OverlayStore.view
  rw [LedgerView.mk.injEq]
  refine ⟨?_, ?_, ?_, ?_⟩
  · funext key
    simp only [collapseOnto, applyTo, getElem?_applyChanges, cellValue, hledger,
      MemoryStore.view]
    cases o.active.cells[key]? <;> cases o.committed.cells[key]? <;> rfl
  · funext key
    simp only [collapseOnto, applyTo, effectiveHolds, hledger, MemoryStore.view]
  · funext key
    simp only [collapseOnto, applyTo, effectiveFeeHolds, hledger, MemoryStore.view]
  · funext key
    simp only [collapseOnto, applyTo, effectiveWithheldCredits, hledger, MemoryStore.view]

theorem toBaseline_collapseOnto (hbase : o.base = m.toBaseline) :
    o.toBaseline = (o.collapseOnto m).toBaseline := by
  unfold toBaseline MemoryStore.toBaseline
  rw [view_collapseOnto hbase]
  congr 1
  funext owner collection lo hi limit
  exact mergedEntries_eq hbase owner collection lo hi limit

theorem heldReservation_eq (hbase : o.base = m.toBaseline) (key : SubstateKey) (tx : TxHash) :
    o.heldReservation key tx = ((o.collapseOnto m).held key)[tx]? := by
  have hledger : o.base.ledger = m.view := congrArg Baseline.ledger hbase
  simp only [OverlayStore.heldReservation, collapseOnto, applyTo,
    getElem?_applyChanges, hledger, MemoryStore.view]
  cases (o.active.held key)[tx]? <;> cases (o.committed.held key)[tx]? <;> rfl

theorem head?_entriesInRange (m : MemoryStore) (key : EntryKey) :
    ((m.entriesInRange key.owner key.collection key.order key.order 1).head?).map Prod.snd =
      m.entries[key]? := by
  have hscan : ∀ p ∈ scan m.entries key.owner key.collection key.order key.order,
      m.entries[key]? = some p.2 := by
    rintro ⟨order, value⟩ hp
    obtain ⟨hlo, hhi, hget⟩ := mem_scan.mp hp
    obtain rfl : order = key.order := le_antisymm hhi hlo
    exact hget
  simp only [MemoryStore.entriesInRange, gt_iff_lt, lt_irrefl, if_false]
  cases hrun : scan m.entries key.owner key.collection key.order key.order with
  | nil =>
    cases hget : m.entries[key]? with
    | none => rfl
    | some value =>
      have hmem := mem_scan.mpr ⟨le_refl key.order, le_refl key.order, hget⟩
      rw [hrun] at hmem
      cases hmem
  | cons p rest =>
    rw [hscan p (by rw [hrun]; exact mem_cons_self)]
    rfl

theorem entryValue_eq (hbase : o.base = m.toBaseline) (key : EntryKey) :
    o.entryValue key = (o.collapseOnto m).entries[key]? := by
  have hentry :
    ((m.toBaseline.entriesInRange key.owner key.collection key.order key.order 1).head?).map
      Prod.snd = m.entries[key]? := head?_entriesInRange m key
  simp only [entryValue, preActiveEntry, hbase, hentry, collapseOnto, applyTo,
    getElem?_applyChanges]
  cases o.active.entries[key]? <;> cases o.committed.entries[key]? <;> rfl

theorem mergedEntries_isEmpty (hbase : o.base = m.toBaseline) (key : EntryKey) :
    (o.mergedEntries key.owner key.collection key.order key.order 1).isEmpty =
      (o.entryValue key).isNone := by
  rw [mergedEntries_eq hbase, entryValue_eq hbase, ← head?_entriesInRange]
  cases (o.collapseOnto m).entriesInRange key.owner key.collection key.order key.order 1 <;> rfl

@[simp] theorem collapseOnto_record (target : EffectTarget) (kind : ModeKind) :
    (o.record target kind).collapseOnto m = o.collapseOnto m := rfl

variable (key : SubstateKey)

attribute [local simp] collapseOnto Layer.applyTo record applyChanges_insert applyChange

theorem collapseOnto_write (value : Bytes) :
    (o.write key value).collapseOnto m = (o.collapseOnto m).write key value := by
  simp [write, MemoryStore.write]

theorem collapseOnto_remove : (o.remove key).1.collapseOnto m = (o.collapseOnto m).remove key := by
  simp [remove, MemoryStore.remove]

theorem collapseOnto_queueDelta (op : DeltaOp) :
    (o.queueDelta key op).collapseOnto m = (o.collapseOnto m).queueDelta key op := by
  simp [queueDelta, MemoryStore.queueDelta, extendQueues_pushDelta]

theorem collapseOnto_entryWrite (key : EntryKey) (value : Bytes) :
    (o.entryWrite key value).collapseOnto m = (o.collapseOnto m).entryWrite key value := by
  simp [entryWrite, MemoryStore.entryWrite]

theorem collapseOnto_entryRemove (key : EntryKey) :
    (o.entryRemove key).1.collapseOnto m = (o.collapseOnto m).entryRemove key := by
  simp [OverlayStore.entryRemove, MemoryStore.entryRemove]

theorem collapseOnto_setAmount (amount : ℕ) :
    (o.setAmount key amount).collapseOnto m = (o.collapseOnto m).setAmount key amount := by
  simp [OverlayStore.setAmount, MemoryStore.setAmount]

theorem changeHold_eq (holds : ExtTreeMap TxHash ℕ) (tx : TxHash) (amount : Option ℕ) :
    changeHold holds tx amount = applyChange holds (tx, amount) := by
  cases amount <;> rfl

theorem update_apply_eq {β γ : Type} (f : SubstateKey → β) (g : SubstateKey → β → γ)
    (key : SubstateKey) (v : β) : (fun k => g k (Function.update f key v k)) =
      Function.update (fun k => g k (f k)) key (g key v) := by
  funext k
  by_cases h : k = key
  · subst h
    simp
  · simp [Function.update_of_ne h]

theorem collapseOnto_setHold (tx : TxHash) (amount : Option ℕ) :
    (o.setHold key tx amount).collapseOnto m = (o.collapseOnto m).setHold key tx amount := by
  simp only [collapseOnto, applyTo, OverlayStore.setHold, MemoryStore.setHold,
    MemoryStore.mk.injEq, true_and, and_true]
  rw [update_apply_eq o.active.held (fun k changes =>
    applyChanges (applyChanges (m.held k) (o.committed.held k)) changes), applyChanges_insert,
    changeHold_eq]

theorem collapseOnto_setFeeHold (tx : TxHash) (amount : Option ℕ) :
    (o.setFeeHold key tx amount).collapseOnto m = (o.collapseOnto m).setFeeHold key tx amount := by
  simp only [collapseOnto, applyTo, OverlayStore.setFeeHold, MemoryStore.setFeeHold,
    MemoryStore.mk.injEq, true_and, and_true]
  rw [update_apply_eq o.active.feeHeld (fun k changes => (⟨applyChanges
    (applyChanges (m.feeHeld k).members (o.committed.feeHeld k)) changes, (m.feeHeld k).rest⟩ :
      FeeHolds)), applyChanges_insert, changeHold_eq]

theorem collapseOnto_withholdCredit (tx : TxHash) (amount : ℕ) :
    (o.withholdCredit key tx amount).collapseOnto m =
      (o.collapseOnto m).withholdCredit key tx amount := by
  simp only [collapseOnto, applyTo, OverlayStore.withholdCredit, MemoryStore.withholdCredit,
    MemoryStore.mk.injEq, true_and]
  rw [update_apply_eq o.active.withheld (fun k changes =>
    extend (extend (m.withheld k) (o.committed.withheld k)) changes), extend_insert]

theorem collapseOnto_mergeActive : o.mergeActive.collapseOnto m = o.collapseOnto m := by
  simp only [collapseOnto, applyTo, mergeActive, empty, applyChanges_extend,
    extend_extend, extendQueues_extendQueues, applyChanges_empty,
    extend_empty, MemoryStore.mk.injEq, and_true, true_and]
  rfl

end

instance : LawfulAmountLedger OverlayStore where
  view_setAmount o key amount := by
    simp only [AmountLedger.view, AmountLedger.setAmount, OverlayStore.view, OverlayStore.setAmount,
      LedgerView.setAmount, LedgerView.mk.injEq]
    refine ⟨?_, rfl, rfl, rfl⟩
    funext key'
    by_cases h : key' = key
    · subst h
      simp [cellValue]
    · simp [cellValue, getElem?_insert_eq, h, Ne.symm h]
  view_setHold o key tx amount := by
    simp only [AmountLedger.view, AmountLedger.setHold, OverlayStore.view, OverlayStore.setHold,
      LedgerView.setHold, LedgerView.mk.injEq]
    refine ⟨rfl, ?_, rfl, rfl⟩
    refine (update_apply_eq o.active.held (fun k changes =>
      applyChanges (applyChanges (o.base.ledger.holds k) (o.committed.held k)) changes) key _).trans
        ?_
    rw [applyChanges_insert, ← changeHold_eq]
    rfl
  view_setFeeHold o key tx amount := by
    simp only [AmountLedger.view, AmountLedger.setFeeHold, OverlayStore.view,
      OverlayStore.setFeeHold, LedgerView.setFeeHold, LedgerView.mk.injEq]
    refine ⟨rfl, rfl, ?_, rfl⟩
    refine (update_apply_eq o.active.feeHeld (fun k changes => (⟨applyChanges (applyChanges
      (o.base.ledger.feeHolds k).members (o.committed.feeHeld k)) changes,
        (o.base.ledger.feeHolds k).rest⟩ : FeeHolds)) key _).trans ?_
    rw [applyChanges_insert, ← changeHold_eq]
    rfl
  view_withholdCredit o key tx amount := by
    simp only [AmountLedger.view, AmountLedger.withholdCredit, OverlayStore.view,
      OverlayStore.withholdCredit, LedgerView.withholdCredit, LedgerView.mk.injEq]
    refine ⟨rfl, rfl, rfl, ?_⟩
    refine (update_apply_eq o.active.withheld (fun k changes =>
      extend (extend (o.base.ledger.withheldCredits k) (o.committed.withheld k)) changes) key
        _).trans ?_
    rw [extend_insert]
    rfl
  view_note _ _ _ := rfl
  view_clearQueued _ := rfl

/-- A map of stores that keeps what is answered and commutes with what is recorded. -/
structure LedgerHom {σ τ : Type} [AmountLedger σ] [AmountLedger τ] (P : σ → Prop) (f : σ → τ) :
    Prop where
  view : ∀ s, P s → view (f s) = view s
  setAmount : ∀ s key amount, P s → P (setAmount s key amount) ∧
    f (setAmount s key amount) = setAmount (f s) key amount
  setHold : ∀ s key tx amount, P s → P (setHold s key tx amount) ∧
    f (setHold s key tx amount) = setHold (f s) key tx amount
  note : ∀ s target kind, P s → P (note s target kind) ∧
    f (note s target kind) = note (f s) target kind

namespace LedgerHom

variable {σ τ : Type} [AmountLedger σ] [AmountLedger τ] {P : σ → Prop} {f : σ → τ}
  (h : LedgerHom P f) {s : σ} (hs : P s)

include h hs

variable (key : SubstateKey)

theorem amount_eq : amount (f s) key = amount s key := by
  unfold amount
  rw [h.view s hs]

theorem heldReservation_eq (tx : TxHash) :
    heldReservation (f s) key tx = heldReservation s key tx := by
  unfold heldReservation
  rw [h.view s hs]

theorem unpromised_eq (standing withheld : ℕ) :
    unpromised (f s) key standing withheld = unpromised s key standing withheld := by
  unfold unpromised heldTotal
  rw [h.view s hs]

theorem judgeMovement_eq (tx : TxHash) (credit debit : ℕ) :
    judgeMovement (f s) key tx credit debit = judgeMovement s key tx credit debit := by
  unfold judgeMovement credited
  simp only [h.amount_eq hs, h.unpromised_eq hs, h.view s hs]

theorem applyMovement_eq (tx : TxHash) (credit debit : ℕ) :
    applyMovement (f s) key tx credit debit =
      (applyMovement s key tx credit debit).map fun p => (f p.1, p.2) := by
  unfold applyMovement
  rw [h.judgeMovement_eq hs]
  cases judgeMovement s key tx credit debit with
  | error e => rfl
  | ok after =>
    simp only [bind, Except.bind, pure, Except.pure, Except.map]
    rw [(h.setAmount s key after hs).2]

theorem settle_eq (tx : TxHash) :
    settle (f s) key tx = (settle s key tx).map fun p => (f p.1, p.2) := by
  unfold settle
  rw [h.heldReservation_eq hs, h.amount_eq hs]
  cases heldReservation s key tx with
  | none => rfl
  | some held =>
    cases amount s key with
    | error e => rfl
    | ok standing =>
      simp only [bind, Except.bind]
      split
      · obtain ⟨hP, hhold⟩ := h.setHold s key tx none hs
        simp only [Except.map, (h.setAmount _ key (standing - held) hP).2, hhold]
      · rfl

theorem release_eq (tx : TxHash) :
    release (f s) key tx = (release s key tx).map fun p => (f p.1, p.2) := by
  unfold release
  rw [h.heldReservation_eq hs]
  cases heldReservation s key tx with
  | none => rfl
  | some held =>
    simp only [Except.map]
    rw [(h.setHold s key tx none hs).2]

theorem noteRequests_eq (seen : List (TxHash × SubstateKey)) (requests : List Request) :
    P (noteRequests s seen requests).1 ∧ noteRequests (f s) seen requests =
      (f (noteRequests s seen requests).1, (noteRequests s seen requests).2) := by
  induction requests generalizing s seen with
  | nil => exact ⟨hs, rfl⟩
  | cons request requests ih =>
    obtain ⟨tx, key, held⟩ := request
    simp only [noteRequests]
    split
    · exact ⟨hs, rfl⟩
    · obtain ⟨hP, hnote⟩ := h.note s (.point key) .reserve hs
      rw [← hnote]
      exact ih hP _

theorem holdFeasible_eq (batch : List (TxHash × ℕ))
    (verdicts : List (TxHash × Feasibility)) : P (holdFeasible s key batch verdicts) ∧
      holdFeasible (f s) key batch verdicts = f (holdFeasible s key batch verdicts) := by
  induction verdicts generalizing s with
  | nil => exact ⟨hs, rfl⟩
  | cons p verdicts ih =>
    obtain ⟨tx, verdict⟩ := p
    cases verdict with
    | feasible =>
      obtain ⟨hP, hhold⟩ := h.setHold s key tx
        (some (((batch.find? fun p => p.1 = tx).map Prod.snd).getD 0)) hs
      simp only [holdFeasible, foldl_cons]
      rw [← hhold]
      exact ih hP
    | infeasible => exact ih hs

variable (requests : List Request)

theorem judgeKeys_eq (keys : List SubstateKey)
    (judged : List ((TxHash × SubstateKey) × Feasibility)) :
    P (judgeKeys requests s keys judged).1 ∧ judgeKeys requests (f s) keys judged =
      (f (judgeKeys requests s keys judged).1, (judgeKeys requests s keys judged).2) := by
  induction keys generalizing s judged with
  | nil => exact ⟨hs, rfl⟩
  | cons key keys ih =>
    have havailable : available (f s) key = available s key := by
      unfold available
      simp only [h.amount_eq hs, h.unpromised_eq hs, h.view s hs]
    simp only [judgeKeys, havailable]
    cases available s key with
    | error e => exact ⟨hs, rfl⟩
    | ok free =>
      obtain ⟨hP, hhold⟩ := h.holdFeasible_eq hs key (batchOn requests key)
        (judge free (batchOn requests key))
      simp only
      rw [hhold]
      exact ih hP _

theorem judgeAndHold_eq : P (judgeAndHold s requests).1 ∧ judgeAndHold (f s) requests =
      (f (judgeAndHold s requests).1, (judgeAndHold s requests).2) := by
  obtain ⟨hP, hnote⟩ := h.noteRequests_eq hs [] requests
  unfold judgeAndHold
  rw [hnote]
  generalize noteRequests s [] requests = noted at hP
  obtain ⟨noted, verdict⟩ := noted
  cases verdict with
  | error e => exact ⟨hP, rfl⟩
  | ok u => exact h.judgeKeys_eq hP requests _ _

theorem step_eq (op : LedgerOp) : P (op.step s) ∧ op.step (f s) = f (op.step s) := by
  cases op with
  | judgeAndHold requests =>
    obtain ⟨hP, heq⟩ := h.judgeAndHold_eq hs requests
    exact ⟨hP, congrArg Prod.fst heq⟩
  | applyMovement key tx credit debit =>
    simp only [step, h.applyMovement_eq hs]
    cases hmove : applyMovement s key tx credit debit with
    | error e => exact ⟨hs, rfl⟩
    | ok p =>
      obtain ⟨s', after⟩ := p
      obtain ⟨-, rfl⟩ := applyMovement_ok.mp hmove
      exact ⟨(h.setAmount s key after hs).1, rfl⟩
  | reduceHold key tx held =>
    simp only [step, reduceHold, h.heldReservation_eq hs]
    obtain ⟨hP, heq⟩ := h.setHold s key tx (some (min held ((heldReservation s key tx).getD 0))) hs
    exact ⟨hP, heq.symm⟩
  | settle key tx =>
    simp only [step, h.settle_eq hs]
    cases hsettle : settle s key tx with
    | error e => exact ⟨hs, rfl⟩
    | ok p =>
      obtain ⟨s', held⟩ := p
      obtain ⟨-, standing, -, -, rfl⟩ := settle_ok.mp hsettle
      exact ⟨(h.setAmount _ key _ (h.setHold s key tx none hs).1).1, rfl⟩
  | release key tx =>
    simp only [step, h.release_eq hs]
    cases hrelease : release s key tx with
    | error e => exact ⟨hs, rfl⟩
    | ok p =>
      obtain ⟨s', held⟩ := p
      obtain ⟨-, rfl⟩ := release_ok.mp hrelease
      exact ⟨(h.setHold s key tx none hs).1, rfl⟩

end LedgerHom

theorem collapseOnto_ledgerHom (m : MemoryStore) (layer : Layer) :
    LedgerHom (fun o : OverlayStore => o.base = m.toBaseline ∧ o.committed = layer)
      fun o => o.collapseOnto m where
  view _ ho := view_collapseOnto ho.1
  setAmount _ key amount ho := ⟨ho, collapseOnto_setAmount key amount⟩
  setHold _ key tx amount ho := ⟨ho, collapseOnto_setHold key tx amount⟩
  note _ _ _ ho := ⟨ho, rfl⟩

section

variable {o : OverlayStore} {m : MemoryStore}

theorem pendingDeltas_collapseOnto :
    (o.collapseOnto m).pendingDeltas = extendQueues m.pendingDeltas o.pendingMap :=
  (extendQueues_extendQueues _ _ _).symm

theorem collapseOnto_clearQueued (hqueue : m.pendingDeltas = ∅) :
    o.clearQueued.collapseOnto m = AmountLedger.clearQueued (o.collapseOnto m) := by
  have hnone : (o.clearQueued.collapseOnto m).pendingDeltas = ∅ := by
    change extendQueues (extendQueues m.pendingDeltas ∅) ∅ = ∅
    rw [hqueue]
    rfl
  change MemoryStore.mk _ _ (o.clearQueued.collapseOnto m).pendingDeltas _ _ _ = _
  rw [hnone]
  rfl

theorem extendQueues_empty (q : ExtTreeMap SubstateKey (List DeltaOp)) : extendQueues ∅ q = q := by
  ext key ops
  rw [getElem?_extendQueues]
  cases q[key]? <;> simp

theorem commitDeltas_collapseOnto (hbase : o.base = m.toBaseline) (hqueue : m.pendingDeltas = ∅) :
    (commitDeltas o).map (fun p => (p.1.collapseOnto m, p.2)) =
      commitDeltas (o.collapseOnto m) := by
  have h := collapseOnto_ledgerHom m o.committed
  have hqueued : queued (o.collapseOnto m) = queued o := by
    change (o.collapseOnto m).pendingDeltas = o.pendingMap
    rw [pendingDeltas_collapseOnto, hqueue, extendQueues_empty]
  have hfold : ∀ key ops, foldQueued (o.collapseOnto m) key ops = foldQueued o key ops := by
    intro key ops
    unfold foldQueued
    rw [h.amount_eq ⟨hbase, rfl⟩ key]
  have hset : ∀ (applied : List AppliedDelta) (o : OverlayStore),
      (applied.foldl (fun (s : OverlayStore) d => AmountLedger.setAmount s d.key d.after)
        o).collapseOnto
          m =
        applied.foldl (fun (s : MemoryStore) d => AmountLedger.setAmount s d.key d.after)
          (o.collapseOnto m) := by
    intro applied
    induction applied with
    | nil => exact fun o => rfl
    | cons outcome applied ih =>
      intro o
      have hone : (AmountLedger.setAmount o outcome.key outcome.after).collapseOnto m =
          AmountLedger.setAmount (o.collapseOnto m) outcome.key outcome.after :=
        collapseOnto_setAmount outcome.key outcome.after
      rw [foldl_cons, foldl_cons, ih, hone]
  unfold commitDeltas
  simp only [hqueued, hfold]
  cases (queued o).toList.mapM fun p => foldQueued o p.1 p.2 with
  | error e => rfl
  | ok applied =>
    simp only [bind, Except.bind, pure, Except.pure, Except.map, ← hset]
    rw [← collapseOnto_clearQueued hqueue]
    rfl

end

inductive StoreOp where
  | read (key : SubstateKey)
  | write (key : SubstateKey) (value : Bytes)
  | remove (key : SubstateKey)
  | queueDelta (key : SubstateKey) (op : DeltaOp)
  | entryWrite (key : EntryKey) (value : Bytes)
  | entryRemove (key : EntryKey)
  | entriesInRange (owner : Address) (collection lo hi cap : ℕ)
  | holds (key : SubstateKey)
  | heldReservation (key : SubstateKey) (tx : TxHash)
  | feeHolds (key : SubstateKey)
  | withheldCredits (key : SubstateKey)
  | setAmount (key : SubstateKey) (amount : ℕ)
  | setHold (key : SubstateKey) (tx : TxHash) (amount : Option ℕ)
  | setFeeHold (key : SubstateKey) (tx : TxHash) (amount : Option ℕ)
  | withholdCredit (key : SubstateKey) (tx : TxHash) (amount : ℕ)
  | holdUnjudged (key : SubstateKey) (tx : TxHash) (amount : ℕ)
  | ledger (op : LedgerOp)

inductive StoreAnswer where
  | done
  | cell (value : Option Bytes)
  | entries (found : List (ℕ × Bytes))
  | holds (standing : ExtTreeMap TxHash ℕ)
  | held (standing : Option ℕ)
  | feeHolds (standing : FeeHolds)
  | amount (result : Except StoreError ℕ)
  | verdicts (result : Except StoreError (List ((TxHash × SubstateKey) × Feasibility)))

def LedgerOp.answer {σ : Type} [AmountLedger σ] (s : σ) : LedgerOp → StoreAnswer
  | .judgeAndHold requests => .verdicts (Kernel.judgeAndHold s requests).2
  | .applyMovement key tx credit debit =>
    .amount ((Kernel.applyMovement s key tx credit debit).map Prod.snd)
  | .reduceHold _ _ _ => .done
  | .settle key tx => .amount ((Kernel.settle s key tx).map Prod.snd)
  | .release key tx => .amount ((Kernel.release s key tx).map Prod.snd)

def OverlayStore.step (o : OverlayStore) : StoreOp → OverlayStore × StoreAnswer
  | .read key => ((o.read key).1, .cell (o.read key).2)
  | .write key value => (o.write key value, .done)
  | .remove key => ((o.remove key).1, .cell (o.remove key).2)
  | .queueDelta key op => (o.queueDelta key op, .done)
  | .entryWrite key value => (o.entryWrite key value, .done)
  | .entryRemove key => ((o.entryRemove key).1, .cell (o.entryRemove key).2)
  | .entriesInRange owner collection lo hi cap =>
    ((o.entriesInRange owner collection lo hi cap).1,
      .entries (o.entriesInRange owner collection lo hi cap).2)
  | .holds key => (o, .holds (o.effectiveHolds key))
  | .heldReservation key tx => (o, .held (o.heldReservation key tx))
  | .feeHolds key => (o, .feeHolds (o.effectiveFeeHolds key))
  | .withheldCredits key => (o, .holds (o.effectiveWithheldCredits key))
  | .setAmount key amount => (o.setAmount key amount, .done)
  | .setHold key tx amount => (o.setHold key tx amount, .done)
  | .setFeeHold key tx amount => (o.setFeeHold key tx amount, .done)
  | .withholdCredit key tx amount => (o.withholdCredit key tx amount, .done)
  | .holdUnjudged key tx amount => (o.holdUnjudged key tx amount, .done)
  | .ledger op => (op.step o, op.answer o)

def MemoryStore.step (s : MemoryStore) : StoreOp → MemoryStore × StoreAnswer
  | .read key => (s, .cell s.cells[key]?)
  | .write key value => (s.write key value, .done)
  | .remove key => (s.remove key, .cell s.cells[key]?)
  | .queueDelta key op => (s.queueDelta key op, .done)
  | .entryWrite key value => (s.entryWrite key value, .done)
  | .entryRemove key => (s.entryRemove key, .cell s.entries[key]?)
  | .entriesInRange owner collection lo hi cap =>
    (s, .entries (s.entriesInRange owner collection lo hi cap))
  | .holds key => (s, .holds (s.held key))
  | .heldReservation key tx => (s, .held (s.held key)[tx]?)
  | .feeHolds key => (s, .feeHolds (s.feeHeld key))
  | .withheldCredits key => (s, .holds (s.withheld key))
  | .setAmount key amount => (s.setAmount key amount, .done)
  | .setHold key tx amount => (s.setHold key tx amount, .done)
  | .setFeeHold key tx amount => (s.setFeeHold key tx amount, .done)
  | .withholdCredit key tx amount => (s.withholdCredit key tx amount, .done)
  | .holdUnjudged key tx amount => (s.setHold key tx (some amount), .done)
  | .ledger op => (op.step s, op.answer s)

theorem LedgerHom.answer_eq {σ τ : Type} [AmountLedger σ] [AmountLedger τ] {P : σ → Prop}
    {f : σ → τ} (h : LedgerHom P f) {s : σ} (hs : P s) (op : LedgerOp) :
    op.answer (f s) = op.answer s := by
  have hmap : ∀ x : Except StoreError (σ × ℕ),
      (x.map fun p => (f p.1, p.2)).map Prod.snd = x.map Prod.snd := by
    intro x
    cases x <;> rfl
  cases op with
  | judgeAndHold requests => simp only [answer, (h.judgeAndHold_eq hs requests).2]
  | applyMovement key tx credit debit => simp only [answer, h.applyMovement_eq hs, hmap]
  | reduceHold key tx held => rfl
  | settle key tx => simp only [answer, h.settle_eq hs, hmap]
  | release key tx => simp only [answer, h.release_eq hs, hmap]

theorem step_collapseOnto (hbase : o.base = m.toBaseline) (op : StoreOp) :
      ((o.step op).1.base = m.toBaseline ∧ (o.step op).1.committed = o.committed) ∧
      (o.step op).1.collapseOnto m = ((o.collapseOnto m).step op).1 ∧
      (o.step op).2 = ((o.collapseOnto m).step op).2 := by
  have hview := view_collapseOnto hbase
  have hcell : ∀ key, o.cellValue key = (o.collapseOnto m).cells[key]? := fun key =>
    (congrFun (congrArg LedgerView.cell hview) key).symm
  cases op
  case ledger op =>
    have h := collapseOnto_ledgerHom m o.committed
    obtain ⟨hP, heq⟩ := h.step_eq ⟨hbase, rfl⟩ op
    exact ⟨hP, heq.symm, (h.answer_eq ⟨hbase, rfl⟩ op).symm⟩
  all_goals refine ⟨⟨hbase, rfl⟩, ?_⟩
  case read key => exact ⟨rfl, congrArg StoreAnswer.cell (hcell key)⟩
  case write key value => exact ⟨collapseOnto_write key value, rfl⟩
  case remove key => exact ⟨collapseOnto_remove key, congrArg StoreAnswer.cell (hcell key)⟩
  case queueDelta key op => exact ⟨collapseOnto_queueDelta key op, rfl⟩
  case entryWrite key value => exact ⟨collapseOnto_entryWrite key value, rfl⟩
  case entryRemove key =>
    exact ⟨collapseOnto_entryRemove key, congrArg StoreAnswer.cell (entryValue_eq hbase key)⟩
  case entriesInRange owner collection lo hi cap =>
    exact ⟨rfl, congrArg StoreAnswer.entries (mergedEntries_eq hbase owner collection lo hi cap)⟩
  case holds key =>
    exact ⟨rfl, congrArg StoreAnswer.holds (congrFun (congrArg LedgerView.holds hview) key).symm⟩
  case heldReservation key tx =>
    exact ⟨rfl, congrArg StoreAnswer.held (heldReservation_eq hbase key tx)⟩
  case feeHolds key =>
    exact ⟨rfl,
      congrArg StoreAnswer.feeHolds (congrFun (congrArg LedgerView.feeHolds hview) key).symm⟩
  case withheldCredits key =>
    exact ⟨rfl,
      congrArg StoreAnswer.holds (congrFun (congrArg LedgerView.withheldCredits hview) key).symm⟩
  case setAmount key amount => exact ⟨collapseOnto_setAmount key amount, rfl⟩
  case setHold key tx amount => exact ⟨collapseOnto_setHold key tx amount, rfl⟩
  case setFeeHold key tx amount => exact ⟨collapseOnto_setFeeHold key tx amount, rfl⟩
  case withholdCredit key tx amount => exact ⟨collapseOnto_withholdCredit key tx amount, rfl⟩
  case holdUnjudged key tx amount =>
    exact ⟨(collapseOnto_setHold key tx (some amount)).trans (by rw [collapseOnto_record]; rfl),
      rfl⟩

inductive OverlayOp where
  | op (op : StoreOp)
  | mergeActive
  | discardActive

def OverlayStore.run (o : OverlayStore) : List OverlayOp → OverlayStore
  | [] => o
  | .op op :: ops => (o.step op).1.run ops
  | .mergeActive :: ops => o.mergeActive.run ops
  | .discardActive :: ops => o.discardActive.run ops

/-- The operations standing in the committed layer and in both layers, each with whether the
layer the run began with stands. -/
structure Surviving where
  committed : Bool × List StoreOp
  both : Bool × List StoreOp

def Surviving.next (s : Surviving) : OverlayOp → Surviving
  | .op op => { s with both := (s.both.1, s.both.2 ++ [op]) }
  | .mergeActive => { s with committed := s.both }
  | .discardActive => { s with both := s.committed }

def surviving (ops : List OverlayOp) : Surviving :=
  ops.foldl Surviving.next ⟨(false, []), (true, [])⟩

def plain (o : OverlayStore) (m : MemoryStore) (survived : Bool × List StoreOp) : MemoryStore :=
  survived.2.foldl (fun s op => (s.step op).1)
    (if survived.1 then o.collapseOnto m else o.discardActive.collapseOnto m)

structure Holds (o : OverlayStore) (m : MemoryStore) (s : Surviving) (o' : OverlayStore) :
    Prop where
  base : o'.base = m.toBaseline
  committed : o'.discardActive.collapseOnto m = plain o m s.committed
  both : o'.collapseOnto m = plain o m s.both

theorem collapseOnto_discardActive : o.discardActive.collapseOnto m = o.committed.applyTo m := by
  simp only [collapseOnto, applyTo, discardActive, empty, applyChanges_empty,
    extend_empty, MemoryStore.mk.injEq, and_true, true_and]
  rfl

variable {o' : OverlayStore} {s : Surviving}

theorem Holds.next (h : Holds o m s o') (op : OverlayOp) : Holds o m (s.next op) (o'.run [op]) := by
  cases op with
  | op op =>
    obtain ⟨⟨hbase, hcommitted⟩, hcollapse, -⟩ := step_collapseOnto h.base op
    refine ⟨hbase, ?_, ?_⟩
    · have hlayer :
          (o'.step op).1.discardActive.collapseOnto m = o'.discardActive.collapseOnto m := by
        rw [collapseOnto_discardActive, collapseOnto_discardActive, hcommitted]
      exact hlayer.trans h.committed
    · simp only [run, Surviving.next, plain, foldl_append, foldl_cons,
        foldl_nil]
      rw [hcollapse, h.both]
      rfl
  | mergeActive =>
    have hmerged : o'.mergeActive.collapseOnto m = o'.collapseOnto m := collapseOnto_mergeActive
    exact ⟨h.base, hmerged.trans h.both, hmerged.trans h.both⟩
  | discardActive => exact ⟨h.base, h.committed, h.committed⟩

theorem Holds.run (h : Holds o m s o')
    (ops : List OverlayOp) : Holds o m (ops.foldl Surviving.next s) (o'.run ops) := by
  induction ops generalizing s o' with
  | nil => exact h
  | cons op ops ih =>
    have hnext := ih (h.next op)
    cases op <;> exact hnext

def stackBase (m : MemoryStore) (layers : List (Layer × Layer)) : Baseline :=
  layers.foldl (fun base l => toBaseline ⟨base, l.1, l.2, []⟩) m.toBaseline

def stackStore (m : MemoryStore) (layers : List (Layer × Layer)) : MemoryStore :=
  layers.foldl (fun s l => l.2.applyTo (l.1.applyTo s)) m

theorem stackBase_eq (m : MemoryStore) (layers : List (Layer × Layer)) :
    stackBase m layers = (stackStore m layers).toBaseline := by
  induction layers generalizing m with
  | nil => rfl
  | cons l layers ih =>
    have hlayer :
      toBaseline ⟨m.toBaseline, l.1, l.2, []⟩ = (l.2.applyTo (l.1.applyTo m)).toBaseline :=
      toBaseline_collapseOnto rfl
    have hrest := ih (l.2.applyTo (l.1.applyTo m))
    unfold stackBase stackStore at hrest ⊢
    rw [foldl_cons, foldl_cons, hlayer, hrest]

/-- An overlay over a stack of layers is the plain store the stack comes to with the surviving
operations made on it: it collapses to that store, answers every operation as it does, queues what
it queues, and over an empty queue commits what it commits. -/
theorem overlay_answers_as_plain_store (m : MemoryStore) (layers : List (Layer × Layer))
    (o : OverlayStore) (hbase : o.base = stackBase m layers) (ops : List OverlayOp) :
    let base := stackStore m layers
    let direct := plain o base (surviving ops).both
    (o.run ops).collapseOnto base = direct ∧
      (∀ op, ((o.run ops).step op).2 = (direct.step op).2) ∧
      direct.pendingDeltas = extendQueues base.pendingDeltas (o.run ops).pendingMap ∧
      (base.pendingDeltas = ∅ →
        (commitDeltas (o.run ops)).map (fun p => (p.1.collapseOnto base, p.2)) =
          commitDeltas direct) := by
  intro base direct
  rw [stackBase_eq] at hbase
  have hstart : Holds o base ⟨(false, []), (true, [])⟩ o := ⟨hbase, rfl, rfl⟩
  have hrun := hstart.run ops
  have hdirect : (o.run ops).collapseOnto base = direct := hrun.both
  refine ⟨hdirect, fun op => ?_, ?_, fun hqueue => ?_⟩
  · rw [← hdirect]
    exact (step_collapseOnto hrun.base op).2.2
  · rw [← hdirect]
    exact pendingDeltas_collapseOnto
  · rw [← hdirect]
    exact commitDeltas_collapseOnto hrun.base hqueue

/-- A write merged, a second discarded: the plain store made the first alone. -/
theorem overlay_of_a_merged_write_answers :
    let ops : List OverlayOp := [.op (.write coveredCell [1]), .mergeActive,
      .op (.write coveredCell [2]), .discardActive]
    let o := OverlayStore.new (stackBase .new [])
    o.base = stackBase .new [] ∧ (surviving ops).both = (true, [.write coveredCell [1]]) ∧
      ((o.run ops).step (.read coveredCell)).2 =
        ((plain o (stackStore .new []) (surviving ops).both).step (.read coveredCell)).2 := by
  intro ops o
  exact ⟨rfl, rfl, (overlay_answers_as_plain_store .new [] o rfl ops).2.1 (.read coveredCell)⟩

end HyperscaleVm.Kernel

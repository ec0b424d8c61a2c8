import HyperscaleVm.Kernel.Rows
import HyperscaleVm.Kernel.Session.Balance
import HyperscaleVm.Library.KeyedFold
import HyperscaleVm.Library.Refusals

/-!
# Movements that were judged commit (`session/receipt.rs`, `ledger.rs`, `modes.rs`)
-/

namespace HyperscaleVm.Kernel
open AmountLedger List Library
open Std (ExtTreeMap)

theorem deltaTotals_perm {ops ops' : List DeltaOp} (h : ops.Perm ops') :
    deltaTotals ops = deltaTotals ops' := by
  have hzero : 0 < AMOUNT_BOUND := by norm_num [AMOUNT_BOUND]
  have hfold : ops.foldlM addDelta (0, 0) = ops'.foldlM addDelta (0, 0) := by
    ext totals
    rw [foldlM_addDelta hzero hzero, foldlM_addDelta hzero hzero,
      (h.map _).sum_eq, (h.map DeltaOp.debit).sum_eq]
  unfold deltaTotals
  rw [hfold]

section Commit

variable {σ : Type} [AmountLedger σ] {s s' : σ} {key : SubstateKey}
  {order order' : List (SubstateKey × List DeltaOp)} {applied : List AppliedDelta}

def commitInOrder (s : σ) (order : List (SubstateKey × List DeltaOp)) :
    Except StoreError (σ × List AppliedDelta) := do
  let applied ← order.mapM fun (key, ops) => foldQueued s key ops
  return (clearQueued (applied.foldl (fun s outcome => setAmount s outcome.key outcome.after) s),
    applied)

theorem commitDeltas_eq (s : σ) : commitDeltas s = commitInOrder s (queued s).toList := rfl

theorem foldQueued_key {ops : List DeltaOp} {outcome : AppliedDelta}
    (h : foldQueued s key ops = .ok outcome) : outcome.key = key := by
  obtain ⟨before, -, after, -, h⟩ := binds_ok.mp h
  cases h
  rfl

theorem outcome_keys
    (h : List.Forall₂ (fun p outcome => foldQueued s p.1 p.2 = .ok outcome) order applied) :
    applied.map AppliedDelta.key = order.map Prod.fst := by
  induction h with
  | nil => rfl
  | cons hfold _ ih => rw [map_cons, map_cons, foldQueued_key hfold, ih]

variable [LawfulAmountLedger σ]

theorem rowAt_commitInOrder (hnodup : (order.map Prod.fst).Nodup)
    (h : commitInOrder s order = .ok (s', applied)) (key : SubstateKey) :
    ((∀ ops, (key, ops) ∉ order) → rowAt s' key = rowAt s key) ∧
      ∀ ops outcome, (key, ops) ∈ order → foldQueued s key ops = .ok outcome →
        rowAt s' key = (rowAt s key).setAmount outcome.after := by
  obtain ⟨outcomes, houtcomes, h⟩ := bind_ok.mp h
  cases h
  have hrelated := mapM_ok.mp houtcomes
  have hcleared : ∀ store : σ, rowAt (clearQueued store) key = rowAt store key := by
    intro store
    unfold rowAt
    rw [LawfulAmountLedger.view_clearQueued]
  let set (s : σ) (p : SubstateKey × ℕ) : σ := setAmount s p.1 p.2
  have hpairs : applied.foldl (fun s outcome => setAmount s outcome.key outcome.after) s =
      (applied.map fun outcome => (outcome.key, outcome.after)).foldl set s := by
    rw [foldl_map]
  have hnodup' :
      ((applied.map fun outcome => (outcome.key, outcome.after)).map Prod.fst).Nodup := by
    rw [map_map]
    exact outcome_keys hrelated ▸ hnodup
  have hother : ∀ (s : σ) (p : SubstateKey × ℕ) (key' : SubstateKey), key' ≠ p.1 →
      rowAt (set s p) key' = rowAt s key' := by
    intro s p key' hne
    exact (ChangesRow.of_setAmount s p.1 p.2).other hne
  obtain ⟨hnone, hsome⟩ := foldl_at_key hother hnodup' s key
  rw [hcleared, hpairs]
  constructor
  · intro habsent
    refine hnone fun after hmem => ?_
    obtain ⟨outcome, houtcome, heq⟩ := mem_map.mp hmem
    obtain ⟨⟨key', ops⟩, hqueued, hfold⟩ := exists_mem_left hrelated houtcome
    have hkey : key' = key := (foldQueued_key hfold).symm.trans (congrArg Prod.fst heq)
    exact habsent ops (hkey ▸ hqueued)
  · intro ops outcome hqueued hfold
    obtain ⟨found, hfound, hfold'⟩ := exists_mem_right hrelated hqueued
    obtain rfl := Except.ok.inj (hfold.symm.trans hfold')
    have hmem : (key, outcome.after) ∈ applied.map fun outcome => (outcome.key, outcome.after) :=
      mem_map.mpr ⟨outcome, hfound, by rw [foldQueued_key hfold]⟩
    obtain ⟨u, hu, hleft⟩ := hsome _ hmem
    rw [hleft, (ChangesRow.of_setAmount u key outcome.after).at_key, hu]

theorem commitInOrder_perm (hperm : order.Perm order') (hnodup : (order.map Prod.fst).Nodup)
    (h : commitInOrder s order = .ok (s', applied)) :
    ∃ t applied', commitInOrder s order' = .ok (t, applied') ∧
      ∀ key, rowAt t key = rowAt s' key := by
  have hfolds : ∀ p ∈ order, ∃ outcome, foldQueued s p.1 p.2 = .ok outcome := by
    intro p hp
    obtain ⟨outcomes, houtcomes, -⟩ := bind_ok.mp h
    exact (exists_mem_right (mapM_ok.mp houtcomes) hp).imp fun _ hfound => hfound.2
  obtain ⟨applied', happlied'⟩ := mapM_answers fun p hp => hfolds p (hperm.mem_iff.mpr hp)
  refine ⟨_, applied', bind_ok.mpr ⟨applied', happlied', rfl⟩, fun key => ?_⟩
  have hcommit : commitInOrder s order' = .ok (_, applied') :=
    bind_ok.mpr ⟨applied', happlied', rfl⟩
  obtain ⟨hnone, hsome⟩ := rowAt_commitInOrder hnodup h key
  obtain ⟨hnone', hsome'⟩ :=
    rowAt_commitInOrder ((hperm.map Prod.fst).nodup_iff.mp hnodup) hcommit key
  by_cases hqueued : ∃ ops, (key, ops) ∈ order
  · obtain ⟨ops, hops⟩ := hqueued
    obtain ⟨outcome, houtcome⟩ := hfolds _ hops
    rw [hsome ops outcome hops houtcome, hsome' ops outcome (hperm.mem_iff.mp hops) houtcome]
  · rw [not_exists] at hqueued
    rw [hnone hqueued, hnone' fun ops hops => hqueued ops (hperm.mem_iff.mpr hops)]

end Commit

theorem view_of_rows {σ : Type} [AmountLedger σ] {s s' : σ}
    (h : ∀ key, rowAt s' key = rowAt s key) :
    view s' = view s := by
  have hcell : (view s').cell = (view s).cell := funext fun key => congrArg Row.cell (h key)
  have hholds : (view s').holds = (view s).holds := funext fun key => congrArg Row.holds (h key)
  have hfee : (view s').feeHolds = (view s).feeHolds := funext fun key =>
    congrArg Row.feeHolds (h key)
  have hwithheld : (view s').withheldCredits = (view s).withheldCredits :=
    funext fun key => congrArg Row.withheld (h key)
  rw [show view s' =
    ⟨(view s').cell, (view s').holds, (view s').feeHolds, (view s').withheldCredits⟩
    from rfl, hcell, hholds, hfee, hwithheld]

theorem pendingMap_retainPendingDeltas (o : OverlayStore) (keep : SubstateKey → Bool)
    (key : SubstateKey) :
    (o.retainPendingDeltas keep).pendingMap[key]? = if keep key then
      o.pendingMap[key]? else none := by
  unfold OverlayStore.pendingMap
  rw [getElem?_extendQueues, getElem?_extendQueues]
  have hfilter : ∀ queue : ExtTreeMap SubstateKey (List DeltaOp),
      (queue.filter fun key _ => keep key)[key]? = if keep key then queue[key]? else none := by
    intro queue
    rw [ExtTreeMap.getElem?_filter']
    cases queue[key]? <;> cases keep key <;> rfl
  have hcommitted : (o.retainPendingDeltas keep).committed.pendingDeltas[key]? =
      if keep key then o.committed.pendingDeltas[key]? else none := hfilter _
  have hactive : (o.retainPendingDeltas keep).active.pendingDeltas[key]? =
      if keep key then o.active.pendingDeltas[key]? else none := hfilter _
  rw [hcommitted, hactive]
  cases keep key <;> rfl

namespace Session

variable {s t : Session} {key : SubstateKey} {movements : ExtTreeMap SubstateKey Movement}

variable {ops : List DeltaOp}

theorem mem_retained : (key, ops) ∈ s.retained.pendingMap.toList ↔
    s.applies key.owner = true ∧ s.store.pendingMap[key]? = some ops := by
  rw [mem_toList, retained, pendingMap_retainPendingDeltas]
  cases s.applies key.owner <;> simp

structure Cleared (s : Session) (movements : ExtTreeMap SubstateKey Movement) : Prop where
  composed : mapEntriesM s.queuedMovement s.store.pendingMap = .ok movements
  judged : ∀ p ∈ movements.toList, s.judgeQueued p = .ok ()

theorem Cleared.movement (h : s.Cleared movements)
    (hops : s.store.pendingMap[key]? = some ops) : ∃ m, s.queuedMovement key ops = .ok m ∧
      movements[key]? = some m ∧ s.judgeQueued (key, m) = .ok () := by
  obtain ⟨habsent, -⟩ | ⟨ops', m, hops', hm, hfound⟩ := mapEntriesM_ok h.composed key
  · cases habsent.symm.trans hops
  · obtain rfl := Option.some.inj (hops.symm.trans hops')
    exact ⟨m, hm, hfound, h.judged _ (mem_toList.mpr hfound)⟩

theorem Cleared.commits (h : s.Cleared movements) :
    ∃ folded applied, commitDeltas s.retained = .ok (folded, applied) := by
  have hfolds : ∀ p ∈ s.retained.pendingMap.toList, ∃ outcome,
      foldQueued s.retained p.1 p.2 = .ok outcome := by
    rintro ⟨key, ops⟩ hp
    obtain ⟨happlies, hops⟩ := mem_retained.mp hp
    obtain ⟨m, hm, -, hjudged⟩ := h.movement hops
    obtain ⟨standing, -, -, -, hfold⟩ := foldQueued_of_judged hm hjudged happlies
    exact ⟨_, hfold⟩
  obtain ⟨applied, happlied⟩ := mapM_answers hfolds
  exact ⟨_, applied, bind_ok.mpr ⟨applied, happlied, rfl⟩⟩

def movedRow (s : Session) (movements : ExtTreeMap SubstateKey Movement)
    (key : SubstateKey) : Row :=
  match movements[key]? with
  | some m =>
    if s.applies key.owner then
      (rowAt s.store key).setAmount (amountOf (s.store.cellValue key) + m.credit - m.debit)
    else rowAt s.store key
  | none => rowAt s.store key

variable {applied : List AppliedDelta}

theorem Cleared.row (h : s.Cleared movements) {folded : OverlayStore}
    (hcommit : commitDeltas s.retained = .ok (folded, applied)) (key : SubstateKey) :
    rowAt folded key = s.movedRow movements key := by
  rw [commitDeltas_eq] at hcommit
  obtain ⟨hnone, hsome⟩ := rowAt_commitInOrder (nodup_keys _) hcommit key
  unfold movedRow
  cases hops : s.store.pendingMap[key]? with
  | none =>
    obtain ⟨-, hunmoved⟩ | ⟨ops, m, hops', -, -⟩ := mapEntriesM_ok h.composed key
    · rw [hunmoved]
      refine hnone fun ops hmem => ?_
      cases hops.symm.trans (mem_retained.mp hmem).2
    · cases hops.symm.trans hops'
  | some ops =>
    obtain ⟨m, hm, hfound, hjudged⟩ := h.movement hops
    rw [hfound]
    dsimp only
    split
    · rename_i happlies
      obtain ⟨standing, hstanding, -, -, hfold⟩ := foldQueued_of_judged hm hjudged happlies
      have hamount : amountOf (s.store.cellValue key) = standing :=
        amountOf_of_ok (mapError_ok.mp hstanding)
      rw [hsome ops _ (mem_retained.mpr ⟨happlies, hops⟩) hfold, hamount]
      rfl
    · rename_i happlies
      exact hnone fun ops hmem => happlies (mem_retained.mp hmem).1

def unwithheld (o : OverlayStore) :
    (SubstateKey → Option Bytes) × (SubstateKey → ExtTreeMap TxHash ℕ) × (SubstateKey → FeeHolds) ×
      (EntryKey → Option Bytes) :=
  ((view o).cell, (view o).holds, (view o).feeHolds, o.entryValue)

theorem unwithheld_raised (s : Session) (entries : List (SubstateKey × Movement))
    (o : OverlayStore) :
    unwithheld (entries.foldl s.withholdRaised o) = unwithheld o := by
  refine foldl_keeps (fun o p => ?_) entries o
  unfold withholdRaised
  split <;> rfl

/-- Each queue moved its cell by its totals where this shard owns the cell; nothing else of the
ledger moved but the credits withheld. -/
structure Moves (s : Session) (movements : ExtTreeMap SubstateKey Movement) (t : Session) :
    Prop where
  totals : ∀ key :
    SubstateKey,
      Option.Rel (fun (ops : List DeltaOp) (m : Movement) =>
        m.credit = (ops.map DeltaOp.credit).sum ∧
    m.debit = (ops.map DeltaOp.debit).sum) s.store.pendingMap[key]? movements[key]?
  moved : ∀ {key : SubstateKey} {m : Movement}, movements[key]? = some m →
    s.applies key.owner = true →
    ∃ standing, amount s.store key = .ok standing ∧ m.debit ≤ standing + m.credit ∧
      amount t.store key = .ok (standing + m.credit - m.debit)
  others : ∀ {key : SubstateKey}, movements[key]? = none ∨ s.applies key.owner = false →
    (view t.store).cell key = (view s.store).cell key
  promises : (view t.store).holds = (view s.store).holds ∧
    (view t.store).feeHolds = (view s.store).feeHolds
  entries : t.store.entryValue = s.store.entryValue

theorem judgeMovements_cleared (h : s.judgeMovements = .ok (t, movements)) :
    s.Cleared movements ∧ ∃ folded applied, commitDeltas s.retained = .ok (folded, applied) ∧
      t = { s with store := if s.creditsWithheld then movements.toList.foldl s.withholdRaised folded
        else folded } := by
  obtain ⟨hbuilt, hjudged, hcommits⟩ := judgeMovements_ok h
  exact ⟨⟨hbuilt, hjudged⟩, hcommits⟩

variable {o o' : OverlayStore}

theorem committed_entries
    (h : commitDeltas o = .ok (o', applied)) : o'.entryValue = o.entryValue := by
  obtain ⟨outcomes, -, h⟩ := bind_ok.mp h
  cases h
  have hset : ∀ (o : OverlayStore) (outcome : AppliedDelta),
      (setAmount o outcome.key outcome.after).entryValue = o.entryValue := fun _ _ => rfl
  exact foldl_keeps hset applied o

theorem moves_of_judged (h : s.judgeMovements = .ok (t, movements)) : s.Moves movements t := by
  obtain ⟨hcleared, folded, applied, hcommit, rfl⟩ := judgeMovements_cleared h
  have hrow := hcleared.row hcommit
  have hcommitted : folded.entryValue = s.retained.entryValue := committed_entries hcommit
  have hkept : unwithheld (if s.creditsWithheld then movements.toList.foldl s.withholdRaised folded
      else folded) = unwithheld folded := by
    split
    · exact unwithheld_raised s _ folded
    · rfl
  obtain ⟨hcell, hkept⟩ := Prod.mk.inj hkept
  obtain ⟨hholds, hkept⟩ := Prod.mk.inj hkept
  obtain ⟨hfee, hentries⟩ := Prod.mk.inj hkept
  refine ⟨fun key => ?_, fun {key m} hfound happlies => ?_, fun {key} hother => ?_, ⟨?_, ?_⟩,
    hentries.trans hcommitted⟩
  · obtain ⟨hops, hfound⟩ | ⟨ops, m, hops, hm, hfound⟩ := mapEntriesM_ok hcleared.composed key
    · rw [hops, hfound]
      exact .none
    · obtain ⟨resource, -, rfl⟩ := queuedMovement_ok hm
      rw [hops, hfound]
      exact .some ⟨rfl, rfl⟩
  · obtain ⟨-, habsent⟩ | ⟨ops, m', hops, hm, hfound'⟩ := mapEntriesM_ok hcleared.composed key
    · cases hfound.symm.trans habsent
    obtain rfl := Option.some.inj (hfound.symm.trans hfound')
    obtain ⟨standing, hstanding, hlt, hle, -⟩ :=
      foldQueued_of_judged hm (hcleared.judged _ (mem_toList.mpr hfound)) happlies
    have hamount : amountOf (s.store.cellValue key) = standing :=
      amountOf_of_ok (mapError_ok.mp hstanding)
    have hleft : (view folded).cell key = Kernel.amountCell (standing + m.credit - m.debit) := by
      refine (congrArg Row.cell (hrow key)).trans ?_
      unfold movedRow
      rw [hfound, hamount]
      exact congrArg Row.cell (if_pos happlies)
    refine ⟨standing, hstanding, hle, mapError_ok.mpr ?_⟩
    rw [hcell, hleft]
    exact cellAmount_amountCell (by omega)
  · rw [hcell]
    have hkey := congrArg Row.cell (hrow key)
    unfold movedRow at hkey
    rcases hother with hunmoved | hremote
    · rw [hunmoved] at hkey
      exact hkey
    · rw [hremote] at hkey
      cases hfound : movements[key]? <;> rw [hfound] at hkey <;> exact hkey
  · rw [hholds]
    refine funext fun key => (congrArg Row.holds (hrow key)).trans ?_
    unfold movedRow
    split <;> try split
    all_goals rfl
  · rw [hfee]
    refine funext fun key => (congrArg Row.feeHolds (hrow key)).trans ?_
    unfold movedRow
    split <;> try split
    all_goals rfl

theorem Cleared.produces (h : s.Cleared movements) :
    ∃ t, s.judgeMovements = .ok (t, movements) := by
  obtain ⟨folded, applied, hcommit⟩ := h.commits
  exact ⟨_, bind_ok.mpr ⟨movements, h.composed, seq_ok.mpr ⟨tryAll_ok.mpr h.judged,
    bind_ok.mpr ⟨_, mapError_ok.mpr hcommit, rfl⟩⟩⟩⟩

def Untouched (s : Session) (stop : Stop) : Prop :=
  ∀ store outcome, stop = .aborted store outcome → store = s.store

theorem stopped_untouched (s : Session) (floor : Outcome) (error : StoreError) :
    s.Untouched (s.stopped floor error) := by
  intro store outcome h
  unfold stopped at h
  split at h <;> cases h <;> rfl

theorem queuedMovement_refuses (key : SubstateKey) (ops : List DeltaOp) :
    Refuses s.Untouched (s.queuedMovement key ops) := by
  unfold queuedMovement
  split
  · exact .error nofun
  · refine .mapError fun error store outcome h => ?_
    cases h
    rfl

theorem judgeQueued_refuses (p : SubstateKey × Movement) :
    Refuses s.Untouched (s.judgeQueued p) := by
  unfold judgeQueued
  split
  · exact .ok ()
  · exact .mapError fun error => stopped_untouched s _ error

theorem judgeMovements_refused {stop : Stop} (h : s.judgeMovements = .error stop) :
    (mapEntriesM s.queuedMovement s.store.pendingMap = .error stop ∨ ∃ movements,
      mapEntriesM s.queuedMovement s.store.pendingMap = .ok movements ∧
        tryAll s.judgeQueued movements.toList = .error stop) ∧ s.Untouched stop := by
  cases hbuilt : mapEntriesM s.queuedMovement s.store.pendingMap with
  | error refusal =>
    obtain rfl : refusal = stop := by
      unfold judgeMovements at h
      rw [hbuilt] at h
      cases h
      rfl
    refine ⟨.inl rfl, Refuses.foldlM_each (fun p _ built => ?_) refusal hbuilt⟩
    exact (queuedMovement_refuses p.1 p.2).map
  | ok movements =>
    cases hjudged : tryAll s.judgeQueued movements.toList with
    | error refusal =>
      obtain rfl : refusal = stop := by
        unfold judgeMovements at h
        rw [hbuilt] at h
        dsimp only [bind, Except.bind] at h
        rw [hjudged] at h
        cases h
        rfl
      exact ⟨.inr ⟨movements, rfl, hjudged⟩,
        Refuses.tryAll (fun p _ => judgeQueued_refuses p) refusal hjudged⟩
    | ok cleared =>
      obtain ⟨t, ht⟩ := Cleared.produces ⟨hbuilt, tryAll_ok.mp hjudged⟩
      cases h.symm.trans ht

theorem judgeMovements_iff :
    (∃ t movements, s.judgeMovements = .ok (t, movements)) ↔ ∀ key, s.Clears key := by
  constructor
  · rintro ⟨t, movements, h⟩ key ops hops
    obtain ⟨m, hm, -, hjudged⟩ := (judgeMovements_cleared h).1.movement hops
    refine ⟨m, hm, hjudged, fun happlies => ?_⟩
    obtain ⟨standing, -, -, -, hfold⟩ := foldQueued_of_judged hm hjudged happlies
    exact ⟨_, hfold⟩
  · intro h
    cases hjudge : s.judgeMovements with
    | ok answer => exact ⟨answer.1, answer.2, rfl⟩
    | error stop =>
      exfalso
      obtain ⟨hbuilt | ⟨movements, hbuilt, hjudged⟩, -⟩ := judgeMovements_refused hjudge
      · refine Refuses.foldlM_each (P := fun _ => False) (fun p hp built => ?_) stop hbuilt
        obtain ⟨m, hm, -⟩ := h p.1 p.2 (mem_toList.mp hp)
        rw [hm]
        exact .ok _
      · refine Refuses.tryAll (P := fun _ => False) (fun p hp => ?_) stop hjudged
        obtain ⟨-, hnone⟩ | ⟨ops, m, hops, hm, hfound⟩ := mapEntriesM_ok hbuilt p.1
        · cases hnone.symm.trans (mem_toList.mp hp)
        · obtain ⟨m', hm', hclears, -⟩ := h p.1 ops hops
          cases hm.symm.trans hm'
          cases hfound.symm.trans (mem_toList.mp hp)
          rw [hclears]
          exact .ok _

def requeued (s : Session) (active committed : ExtTreeMap SubstateKey (List DeltaOp)) : Session :=
  { s with store := { s.store with
      active := { s.store.active with pendingDeltas := active }
      committed := { s.store.committed with pendingDeltas := committed } } }

theorem Cleared.requeued (h : s.Cleared movements)
    {active committed : ExtTreeMap SubstateKey (List DeltaOp)}
    (hperm : ∀ key : SubstateKey, Option.Rel List.Perm s.store.pendingMap[key]?
      (s.requeued active committed).store.pendingMap[key]?) :
    (s.requeued active committed).Cleared movements := by
  have hmoves : ∀ (key : SubstateKey) {ops ops' : List DeltaOp} {m : Movement}, ops.Perm ops' →
      s.queuedMovement key ops = .ok m →
        (s.requeued active committed).queuedMovement key ops' = .ok m := by
    intro key ops ops' m hops hm
    unfold queuedMovement at hm ⊢
    have hholds : (s.requeued active committed).cellHolds key = s.cellHolds key := rfl
    rw [hholds]
    split at hm
    · cases hm
    · have htotal := mapError_ok.mp hm
      unfold totalMovement at htotal ⊢
      rw [deltaTotals_perm hops] at htotal
      exact mapError_ok.mpr htotal
  have hback : ∀ {key : SubstateKey} {ops' : List DeltaOp},
      (s.requeued active committed).store.pendingMap[key]? = some ops' →
        ∃ ops, s.store.pendingMap[key]? = some ops ∧ ops.Perm ops' := by
    intro key ops' hops'
    have hrel := hperm key
    rw [hops'] at hrel
    generalize s.store.pendingMap[key]? = found at hrel
    cases hrel with
    | some hops => exact ⟨_, rfl, hops⟩
  have hanswers : ∀ key ops', (s.requeued active committed).store.pendingMap[key]? = some ops' →
      ∃ m, (s.requeued active committed).queuedMovement key ops' = .ok m := by
    intro key ops' hops'
    obtain ⟨ops, hops, hsame⟩ := hback hops'
    obtain ⟨m, hm, -⟩ := h.movement hops
    exact ⟨m, hmoves key hsame hm⟩
  obtain ⟨movements', hbuilt⟩ := mapEntriesM_answers hanswers
  obtain rfl : movements' = movements := by
    refine ExtTreeMap.ext_getElem? fun key => ?_
    obtain ⟨hnone, hunmoved⟩ | ⟨ops', m', hops', hm', hfound'⟩ := mapEntriesM_ok hbuilt key
    · rw [hunmoved]
      obtain ⟨-, hsame⟩ | ⟨ops, m, hops, -, -⟩ := mapEntriesM_ok h.composed key
      · exact hsame.symm
      · have hrel := hperm key
        rw [hops, hnone] at hrel
        cases hrel
    · obtain ⟨ops, hops, hsame⟩ := hback hops'
      obtain ⟨m, hm, hfound, -⟩ := h.movement hops
      rw [hfound', hfound]
      exact congrArg some (Except.ok.inj (hm'.symm.trans (hmoves key hsame hm)))
  refine ⟨hbuilt, fun p hp => ?_⟩
  have hjudged := h.judged p hp
  unfold judgeQueued at hjudged ⊢
  split at hjudged
  · rename_i hremote
    exact if_pos hremote
  · rename_i howned
    exact (if_neg howned).trans (mapError_ok.mpr (mapError_ok.mp hjudged))

theorem view_withholdRaised (entries : List (SubstateKey × Movement)) (h : view o' = view o) :
    view (entries.foldl s.withholdRaised o') = view (entries.foldl s.withholdRaised o) := by
  induction entries generalizing o o' with
  | nil => exact h
  | cons p entries ih =>
    refine ih ?_
    have hwithhold : ∀ store : OverlayStore, view (s.withholdRaised store p) =
        if 0 < p.2.raised ∧ s.applies p.1.owner = true then
          (view store).withholdCredit p.1 s.tx p.2.raised else view store := by
      intro store
      unfold withholdRaised
      split
      · exact LawfulAmountLedger.view_withholdCredit store _ _ _
      · rfl
    rw [hwithhold, hwithhold, h]

/-- For every session, holds and credits withheld as they stand: what was judged folds, by the
totals of each queue on the cells this shard owns and nowhere else; a refusal is one of the
judging and leaves the store as it stood; and neither the order of the cells nor that of a
queue is seen in what is left. -/
theorem judged_movements_commit (s : Session) :
    (∀ movements, s.Cleared movements → ∃ t, s.judgeMovements = .ok (t, movements)) ∧
    (∀ stop, s.judgeMovements = .error stop →
      (mapEntriesM s.queuedMovement s.store.pendingMap = .error stop ∨ ∃ movements,
        mapEntriesM s.queuedMovement s.store.pendingMap = .ok movements ∧
          tryAll s.judgeQueued movements.toList = .error stop) ∧ s.Untouched stop) ∧
    ∀ t movements, s.judgeMovements = .ok (t, movements) → s.Moves movements t ∧
      (∀ order, order.Perm s.retained.pendingMap.toList → ∃ store applied,
        commitInOrder s.retained order = .ok (store, applied) ∧
          (view store).cell = (view t.store).cell) ∧
      ∀ active committed, (∀ key : SubstateKey, Option.Rel List.Perm s.store.pendingMap[key]?
          (s.requeued active committed).store.pendingMap[key]?) →
        ∃ t', (s.requeued active committed).judgeMovements = .ok (t', movements) ∧
          view t'.store = view t.store := by
  refine ⟨fun movements => Cleared.produces, fun stop => judgeMovements_refused,
    fun t movements h =>
      ⟨moves_of_judged h, fun order hperm => ?_, fun active committed hperm => ?_⟩⟩
  · obtain ⟨hcleared, folded, applied, hcommit, rfl⟩ := judgeMovements_cleared h
    obtain ⟨store, applied', hcommit', hrows⟩ :=
      commitInOrder_perm hperm.symm (nodup_keys _) hcommit
    refine ⟨store, applied', hcommit', ?_⟩
    rw [view_of_rows hrows]
    dsimp only
    split
    · exact (Prod.mk.inj (unwithheld_raised s movements.toList folded)).1.symm
    · rfl
  · obtain ⟨hcleared, folded, applied, hcommit, rfl⟩ := judgeMovements_cleared h
    obtain ⟨t', ht'⟩ := (hcleared.requeued hperm).produces
    refine ⟨t', ht', ?_⟩
    obtain ⟨hcleared', folded', applied', hcommit', rfl⟩ := judgeMovements_cleared ht'
    have hview : view folded' = view folded :=
      view_of_rows fun key => (hcleared'.row hcommit' key).trans (hcleared.row hcommit key).symm
    have hwithheld : (s.requeued active committed).creditsWithheld = s.creditsWithheld := rfl
    dsimp only
    rw [hwithheld]
    split
    · exact view_withholdRaised movements.toList hview
    · exact hview

end Session

/-- Two of five taken from a vault leave it three. -/
theorem taken_vault_commits :
    ∃ s t u movements, opensOver (stocking 5) fullDeclared = .ok s ∧
      (s.given .plain).run [.cellTake 0 0 2] = .ok t ∧
      t.judgeMovements = .ok (u, movements) ∧ amount u.store fullVault = .ok 3 := by
  obtain ⟨s, t, hopen, hrun, hrest⟩ := @exists_run (stocking 5) fullDeclared
    .plain [.cellTake 0 0 2] (fun _ t =>
      decide (amount t.store fullVault = .ok 5 ∧ t.applies fullVault.owner = true) &&
        passes t.judgeMovements fun p =>
          p.2[fullVault]? = some ⟨fullResource, 0, 2⟩) (by decide +kernel)
  obtain ⟨hstart, hrest⟩ := Bool.and_eq_true_iff.mp hrest
  obtain ⟨hamount, happlies⟩ := of_decide_eq_true hstart
  obtain ⟨⟨u, movements⟩, hjudged, hfound⟩ := passes_iff.mp hrest
  obtain ⟨hmoves, -⟩ := (Session.judged_movements_commit t).2.2 u movements hjudged
  obtain ⟨standing, hstanding, -, hleft⟩ := hmoves.moved (of_decide_eq_true hfound) happlies
  obtain rfl := Except.ok.inj (hamount.symm.trans hstanding)
  exact ⟨s, t, u, movements, hopen, hrun, hjudged, hleft⟩

end HyperscaleVm.Kernel

import HyperscaleVm.Kernel.Session.Reservations
import HyperscaleVm.Kernel.Session.Weighing

/-!
# What finishing leaves
-/

namespace HyperscaleVm.Kernel
open Effects List Option
open Library
open Std (ExtTreeMap)

section

variable {declaration : Declaration} {s : Session} {held : Capability} {key : SubstateKey}

theorem CapabilityOf.valueKey_contents {effect : Effect} {denominated : Bool} {width : ℕ}
    (h : CapabilityOf effect denominated width held)
    (hkey : held.valueKey = some key) : contentsOf effect.target = .leaf key := by
  cases h with
  | amountRead target mode value | amount target mode value | delta target mode value
  | reserve target mode value =>
    obtain rfl := some.inj hkey
    rw [target]
    rfl
  | _ => cases hkey

variable {resource : ResourceAddr} {rep : ℕ}

theorem Tabled.findSome_holds (h : Tabled declaration s.setting) (on : Capability → Bool)
    {contents : Contents} (hon : ∀ {effect : Effect} {denominated width held},
      CapabilityOf effect denominated width held →
      on held = true → contentsOf effect.target = contents) (htable : s.table[rep]? = some held)
    (hheld : on held = true) (hresource : s.resourceAt rep = some resource) :
    (s.table.zipIdx.findSome? fun p => if on p.1 then s.resourceAt p.2 else none) =
      some resource := by
  have hmem : (held, rep) ∈ s.table.zipIdx := mem_zipIdx_iff_getElem?.mpr htable
  cases hfound : s.table.zipIdx.findSome? fun p => if on p.1 then s.resourceAt p.2 else none with
  | none =>
    rw [findSome?_eq_none_iff] at hfound
    have hnone := hfound _ hmem
    rw [if_pos hheld, hresource] at hnone
    cases hnone
  | some resource' =>
    obtain ⟨⟨held', rep'⟩, hmem', hsome⟩ := exists_of_findSome?_eq_some hfound
    dsimp only at hsome
    split at hsome
    · rename_i hheld'
      obtain ⟨access, hordered, hholds, hcap⟩ := h.access htable
      obtain ⟨access', hordered', hholds', hcap'⟩ := h.access (mem_zipIdx_iff_getElem?.mp hmem')
      have hagree := h.agree access (mem_of_getElem? hordered) access'
        (mem_of_getElem? hordered') ((hon hcap hheld).trans (hon hcap' hheld').symm)
      rw [← hholds, ← hholds'] at hagree
      have hsame : s.resourceAt rep = s.resourceAt rep' := hagree
      rw [hsame, hsome] at hresource
      exact hresource
    · cases hsome

theorem Tabled.cellHolds (h : Tabled declaration s.setting) (htable : s.table[rep]? = some held)
    (hkey : held.valueKey = some key) (hresource : s.resourceAt rep = some resource) :
    s.cellHolds key = some resource := by
  have hfound := h.findSome_holds (fun held => held.valueKey = some key)
    (fun hcap hon => hcap.valueKey_contents (of_decide_eq_true hon)) htable (by simpa using hkey)
      hresource
  simpa [Session.cellHolds] using hfound

end

namespace Session

variable {s t : Session}

theorem accounts_ok {delta : StateDelta} (h : s.accounts = .ok (t, delta)) :
    ∃ s₁ moved s₂ settles s₃ movements cells, s.buckets.carriesValue = false ∧
      s.judgeMovements = .ok (s₁, moved) ∧ s₁.settleReservations = .ok (s₂, settles) ∧
      s₂.burnFee moved = .ok (s₃, movements) ∧ t = s₃.writeKernelCells ∧
      undeclaredAccesses t.store.log t.declared = [] ∧
      t.kernelCells.foldlM t.putKernelCell ((diff t.store).cells.filter fun key _ =>
        !movements.contains key && !settles.contains key) = .ok cells ∧
      delta = ⟨cells, (diff t.store).entries, movements, settles⟩ := by
  obtain ⟨hcarries, h⟩ := seq_ok.mp h
  obtain ⟨⟨s₁, moved⟩, hmoved, ⟨s₂, settles⟩, hsettles, h⟩ := binds_ok.mp h
  obtain ⟨⟨s₃, movements⟩, hmovements, h⟩ := bind_ok.mp h
  obtain ⟨hescaped, h⟩ := seq_ok.mp h
  obtain ⟨cells, hcells, h⟩ := bind_ok.mp h
  cases h
  refine ⟨s₁, moved, s₂, settles, s₃, movements, cells, ?_, hmoved, hsettles, hmovements, rfl,
    ?_, hcells, rfl⟩
  · simpa using hcarries
  · simpa using hescaped

theorem judgeMovements_ok {movements : ExtTreeMap SubstateKey Movement}
    (h : s.judgeMovements = .ok (t, movements)) :
    mapEntriesM s.queuedMovement s.store.pendingMap = .ok movements ∧
      (∀ p ∈ movements.toList, s.judgeQueued p = .ok ()) ∧
      ∃ folded applied, commitDeltas (s.store.retainPendingDeltas fun key => s.applies key.owner) =
          .ok (folded, applied) ∧
        t =
          { s with store := if s.creditsWithheld then movements.toList.foldl s.withholdRaised folded
          else folded } := by
  obtain ⟨built, hbuilt, h⟩ := bind_ok.mp h
  obtain ⟨hjudged, h⟩ := seq_ok.mp h
  obtain ⟨⟨folded, applied⟩, hfolded, h⟩ := bind_ok.mp h
  cases h
  exact ⟨hbuilt, tryAll_ok.mp hjudged, folded, applied, mapError_ok.mp hfolded, rfl⟩

variable {ops : List DeltaOp} {m : Movement}

theorem totalMovement_ok {resource : ResourceAddr} (h : totalMovement ops resource = .ok m) :
    m = ⟨resource, (ops.map DeltaOp.credit).sum, (ops.map DeltaOp.debit).sum⟩ := by
  obtain ⟨totals, htotals, rfl⟩ := map_ok.mp h
  rw [(deltaTotals_ok.mp htotals).1]

variable {key : SubstateKey}

theorem queuedMovement_ok
    (h : s.queuedMovement key ops = .ok m) : ∃ resource, s.cellHolds key = some resource ∧
      m = ⟨resource, (ops.map DeltaOp.credit).sum, (ops.map DeltaOp.debit).sum⟩ := by
  unfold queuedMovement at h
  split at h
  · cases h
  · rename_i resource hholds
    exact ⟨resource, hholds, totalMovement_ok (mapError_ok.mp h)⟩

theorem reducedFor_eq (key : SubstateKey) (taken : ℕ) :
    s.reducedFor key taken = { s with store := (s.reducedFor key taken).store } := by
  unfold reducedFor
  split <;> rfl

inductive Disposed (s : Session) (key : SubstateKey) : ℕ → OverlayStore → Option ℕ → Prop
  | released {held : ℕ} (hold : s.store.heldReservation key s.tx = some held) :
      Disposed s key 0 (s.store.setHold key s.tx none) none
  | settled {taken standing : ℕ} (spent : taken ≠ 0) (owned : s.applies key.owner = true)
      (stands : amount s.store key = .ok standing)
      (covered : min taken ((s.store.heldReservation key s.tx).getD 0) ≤ standing) :
      Disposed s key taken
        (((reduceHold s.store key s.tx taken).setHold key s.tx none).setAmount key
          (standing - min taken ((s.store.heldReservation key s.tx).getD 0)))
        (some (min taken ((s.store.heldReservation key s.tx).getD 0)))
  | recorded {taken held : ℕ} (spent : taken ≠ 0) (remote : s.applies key.owner = false)
      (hold : s.store.heldReservation key s.tx = some held) :
      Disposed s key taken (s.store.setHold key s.tx none) (some taken)

theorem disposeHold_ok {taken : ℕ} {store : OverlayStore} {settled : Option ℕ}
    (h : (s.reducedFor key taken).disposeHold key taken = .ok (store, settled)) :
    s.Disposed key taken store settled := by
  unfold disposeHold at h
  split at h
  · rename_i hzero
    subst hzero
    have hreduced : s.reducedFor key 0 = s := if_neg fun h => h.1 rfl
    rw [hreduced] at h
    obtain ⟨⟨released, held⟩, hrelease, h⟩ := map_ok.mp h
    cases h
    obtain ⟨hheld, rfl⟩ := release_ok.mp hrelease
    rw [OverlayStore.heldReservation_view] at hheld
    exact .released hheld
  · rename_i hzero
    split at h
    · rename_i happlies
      have happlies : s.applies key.owner = true := by
        rw [reducedFor_eq] at happlies
        exact happlies
      have hreduced :
        s.reducedFor key taken = { s with store := reduceHold s.store key s.tx taken } :=
        if_pos ⟨hzero, happlies⟩
      rw [hreduced] at h
      obtain ⟨⟨after, held⟩, hsettle, h⟩ := map_ok.mp h
      cases h
      obtain ⟨hheld, standing, hstanding, hle, rfl⟩ := settle_ok.mp hsettle
      have hcut : heldReservation (reduceHold s.store key s.tx taken) key s.tx =
          some (min taken ((s.store.heldReservation key s.tx).getD 0)) := by
        unfold reduceHold
        rw [heldReservation_setHold, if_pos ⟨rfl, rfl⟩, OverlayStore.heldReservation_view]
      obtain rfl := some.inj (hheld.symm.trans hcut)
      have hstands : amount s.store key = .ok standing := by
        rw [← hstanding]
        exact (amount_setHold (s := s.store)).symm
      exact .settled hzero happlies hstands hle
    · rename_i happlies
      have happlies : s.applies key.owner = false := by
        rw [reducedFor_eq] at happlies
        simpa using happlies
      have hreduced : s.reducedFor key taken = s := if_neg fun h => by simp [happlies] at h
      rw [hreduced] at h
      obtain ⟨⟨released, held⟩, hrelease, h⟩ := map_ok.mp h
      cases h
      obtain ⟨hheld, rfl⟩ := release_ok.mp hrelease
      rw [OverlayStore.heldReservation_view] at hheld
      exact .recorded hzero happlies hheld

theorem settleReservation_ok {settles settles' : ExtTreeMap SubstateKey Movement}
    (h : settleReservation (s, settles) key = .ok (t, settles')) :
    (s.judges key.owner = false ∧ t = s ∧ settles' = settles) ∨
    ∃ resource taken store settled, s.judges key.owner = true ∧ s.cellHolds key = some resource ∧
      s.takenAgainst key = some taken ∧ s.Disposed key taken store settled ∧ t = { s with store } ∧
      settles' =
        (settled.map fun amount => settles.insert key (.ofDebit resource amount)).getD settles := by
  unfold settleReservation at h
  dsimp only at h
  split at h
  · rename_i hjudges
    cases h
    exact .inl ⟨by simpa using hjudges, rfl, rfl⟩
  · rename_i hjudges
    split at h
    · cases h
    rename_i resource hholds
    split at h
    · cases h
    rename_i taken htaken
    obtain ⟨⟨store, settled⟩, hdisposed, h⟩ := bind_ok.mp h
    cases h
    refine .inr ⟨resource, taken, store, settled, by simpa using hjudges, hholds, htaken,
      disposeHold_ok (mapError_ok.mp hdisposed), ?_, ?_⟩
    · rw [reducedFor_eq]
    · cases settled <;> rfl

variable {seen : List SubstateKey} {table : List Capability}

theorem mem_reservedKeys :
    key ∈ reservedKeys seen table ↔
      key ∉ seen ∧ ∃ amount, Capability.reserve key amount ∈ table := by
  induction table generalizing seen with
  | nil => simp [reservedKeys]
  | cons held table ih =>
    unfold reservedKeys
    cases held with
    | reserve key' amount =>
      dsimp only
      split
      · rename_i hseen
        rw [ih]
        refine and_congr_right fun hkey => ⟨fun ⟨n, hn⟩ => ⟨n, mem_cons_of_mem _ hn⟩, ?_⟩
        rintro ⟨n, hn⟩
        rcases mem_cons.mp hn with heq | hn
        · cases heq
          exact absurd hseen hkey
        · exact ⟨n, hn⟩
      · rename_i hseen
        rw [mem_cons, ih]
        by_cases hkey : key = key'
        · subst hkey
          simp [hseen]
        · simp [hkey]
    | _ =>
      dsimp only
      rw [ih]
      simp

theorem nodup_reservedKeys : (reservedKeys seen table).Nodup := by
  induction table generalizing seen with
  | nil => exact nodup_nil
  | cons held table ih =>
    unfold reservedKeys
    cases held with
    | reserve key amount =>
      dsimp only
      split
      · exact ih
      · refine nodup_cons.mpr ⟨fun hmem => ?_, ih⟩
        exact (mem_reservedKeys.mp hmem).1 mem_cons_self
    | _ => exact ih

end Session

end HyperscaleVm.Kernel

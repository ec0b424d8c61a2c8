import HyperscaleVm.Kernel.Rows
import HyperscaleVm.Kernel.Session.Finishing
import HyperscaleVm.Library.KeyedFold
import HyperscaleVm.Library.Refusals

/-!
# A completed receipt
-/

namespace HyperscaleVm.Kernel
open Library Option
open Std (ExtTreeMap)

theorem Movement.andThen_ok {m next composed : Movement} :
    m.andThen next = some composed ↔ m.resource = next.resource ∧
      m.credit + next.credit < AMOUNT_BOUND ∧ m.debit + next.debit < AMOUNT_BOUND ∧
      composed = ⟨m.resource, m.credit + next.credit, m.debit + next.debit⟩ := by
  unfold Movement.andThen checkedAdd
  by_cases hresource : m.resource = next.resource
  · by_cases hcredit : m.credit + next.credit < AMOUNT_BOUND
    · by_cases hdebit : m.debit + next.debit < AMOUNT_BOUND
      · simp [hresource, hcredit, hdebit, eq_comm]
      · simp [hresource, hcredit, hdebit]
    · simp [hresource, hcredit]
  · simp [hresource]

def Stop.Ordinary : Stop → Prop
  | .aborted _ outcome => outcome.isCompleted = false
  | .refused error => ∀ escaped, error ≠ .undeclared escaped

namespace Session

variable {s t : Session}

theorem stopped_ordinary {floor : Outcome} (hfloor : floor.isCompleted = false)
    (error : StoreError) :
    (s.stopped floor error).Ordinary := by
  unfold stopped
  split
  · exact hfloor
  · rfl
  · intro escaped h
    cases h

theorem foldRefused_ordinary (error : StoreError) : (s.foldRefused error).Ordinary := by
  unfold foldRefused
  split
  · rfl
  · intro escaped h
    cases h

theorem queuedMovement_ordinary (key : SubstateKey) (ops : List DeltaOp) :
    Refuses Stop.Ordinary (s.queuedMovement key ops) := by
  unfold queuedMovement
  split
  · refine .error ?_
    intro escaped h
    cases h
  · exact .mapError fun _ => rfl

theorem judgeMovements_ordinary : Refuses Stop.Ordinary s.judgeMovements := by
  refine .bind ?_ fun movements _ => .seq (.tryAll fun p _ => ?_) fun _ =>
    .bind ?_ fun _ _ => .pure _
  · exact .foldlM_each fun p _ built => .map (queuedMovement_ordinary p.1 p.2)
  · unfold judgeQueued
    split
    · exact .ok ()
    · exact .mapError fun error => stopped_ordinary rfl error
  · exact .mapError fun error => foldRefused_ordinary error

theorem settleReservations_ordinary : Refuses Stop.Ordinary s.settleReservations := by
  refine .foldlM_each fun key _ state => ?_
  obtain ⟨u, settles⟩ := state
  unfold settleReservation
  dsimp only
  split
  · exact .ok _
  split
  · refine .error ?_
    intro escaped h
    cases h
  · split
    · exact .error rfl
    · exact .bind (.mapError fun error => stopped_ordinary rfl error) fun _ _ => .pure _

variable (movements : ExtTreeMap SubstateKey Movement)

theorem composeBurn_ordinary (fee : FeeBurn) :
    Refuses Stop.Ordinary (composeBurn movements fee) := by
  unfold composeBurn
  dsimp only
  split
  · exact .ok _
  split
  · exact .ok _
  · refine .error ?_
    intro escaped h
    cases h

theorem burnFee_ordinary : Refuses Stop.Ordinary (s.burnFee movements) := by
  unfold burnFee
  split
  · exact .ok _
  dsimp only
  split
  · exact .ok _
  · refine .bind (.mapError fun error => stopped_ordinary rfl error) fun _ _ => .bind
      (composeBurn_ordinary movements _) fun _ _ =>
        .bind (.mapError fun _ => rfl) fun _ _ => .pure _

theorem accounts_refuses {P : Stop → Prop} (hordinary : ∀ stop, stop.Ordinary → P stop)
    (hescaped : ∀ s₁ moved s₂ settles s₃ movements, s.judgeMovements = .ok (s₁, moved) →
      s₁.settleReservations = .ok (s₂, settles) → s₂.burnFee moved = .ok (s₃, movements) →
      undeclaredAccesses s₃.writeKernelCells.store.log s₃.writeKernelCells.declared ≠ [] →
      P (.refused (.undeclared
        (undeclaredAccesses s₃.writeKernelCells.store.log s₃.writeKernelCells.declared)))) :
    Refuses P s.accounts := by
  refine .seq (.require fun _ => hordinary _ rfl) fun _ =>
    .bind (judgeMovements_ordinary.mono hordinary) ?_
  rintro ⟨s₁, moved⟩ hmoved
  refine .bind (settleReservations_ordinary.mono hordinary) ?_
  rintro ⟨s₂, settles⟩ hsettled
  refine .bind ((burnFee_ordinary moved).mono hordinary) ?_
  rintro ⟨s₃, movements⟩ hburned
  refine .seq (.require fun hsome =>
    hescaped s₁ moved s₂ settles s₃ movements hmoved hsettled hburned ?_)
    fun _ => .bind (.foldlM_each fun p _ cells => ?_) fun _ _ => .pure _
  · simpa using hsome
  · unfold putKernelCell
    split
    · exact .error (hordinary _ rfl)
    · exact .ok _

theorem balanced_refuses {P : Stop → Prop} (hordinary : ∀ stop, stop.Ordinary → P stop)
    (haccounts : Refuses P s.accounts) : Refuses P s.balanced :=
  .bind haccounts fun _ _ => .seq (.require fun _ => hordinary _ rfl) fun _ => .pure _

theorem finish_completed {answers : List Answer} {fuelByNode : List ℕ} {receipt : Receipt}
    {threaded : OverlayStore} (h : s.finish answers fuelByNode = .ok (receipt, threaded))
    (hcompleted : receipt.outcome.isCompleted = true) :
    ∃ t, s.accounts = .ok (t, receipt.delta) ∧ t.unconserved receipt.delta = none ∧
      threaded = t.store.mergeActive := by
  have hstops : Refuses (fun stop => ∀ store outcome, stop = .aborted store outcome →
      outcome.isCompleted = false) s.balanced := by
    have hordinary : ∀ stop : Stop, stop.Ordinary → ∀ store outcome, stop = .aborted store outcome →
        outcome.isCompleted = false := by
      rintro _ h store outcome rfl
      exact h
    refine balanced_refuses hordinary (accounts_refuses hordinary ?_)
    intro s₁ moved s₂ settles s₃ movements _ _ _ _ store outcome h
    cases h
  unfold finish at h
  split at h
  · cases h
  · rename_i store outcome hstop
    cases h
    have hincomplete : outcome.isCompleted = false := hstops _ hstop store outcome rfl
    have hdone : outcome.isCompleted = true := hcompleted
    rw [hincomplete] at hdone
    cases hdone
  · rename_i t delta hbalanced
    split at h
    · cases h
      obtain ⟨⟨u, made⟩, haccounts, hrest⟩ := bind_ok.mp hbalanced
      obtain ⟨hweighed, hrest⟩ := seq_ok.mp hrest
      cases hrest
      exact ⟨t, haccounts, by simpa using hweighed, rfl⟩
    · cases h

variable {moved : ExtTreeMap SubstateKey Movement} {movements} {fee : FeeBurn}
  {composed m : Movement} {key : SubstateKey}

def Composed (moved : ExtTreeMap SubstateKey Movement) (fee : FeeBurn)
    (composed : Movement) : Prop :=
  (moved[fee.vault]? = none ∧ composed = .ofDebit fee.resource fee.amount) ∨
    ∃ standing, moved[fee.vault]? = some standing ∧
      standing.andThen (.ofDebit fee.resource fee.amount) = some composed

theorem composeBurn_ok (h : composeBurn moved fee = .ok movements) :
    ∃ composed, Composed moved fee composed ∧ movements = moved.insert fee.vault composed := by
  unfold composeBurn at h
  dsimp only at h
  split at h
  · rename_i hnone
    cases h
    exact ⟨_, .inl ⟨hnone, rfl⟩, rfl⟩
  · rename_i standing hstanding
    split at h
    · rename_i composed hcomposed
      cases h
      exact ⟨composed, .inr ⟨standing, hstanding, hcomposed⟩, rfl⟩
    · cases h

inductive Burned (s : Session) (moved : ExtTreeMap SubstateKey Movement) :
    Session → ExtTreeMap SubstateKey Movement → Prop
  | elsewhere (hfee : (s.fee.filter fun fee => fee.endsHold s.applies) = none) :
    Burned s moved s moved
  | nothing {fee : FeeBurn} (hfee : (s.fee.filter fun fee => fee.endsHold s.applies) = some fee)
      (hzero : fee.amount = 0) :
      Burned s moved { s with store := s.store.setFeeHold fee.vault s.tx none } moved
  | burned {fee : FeeBurn} {after : ℕ} {composed : Movement} {supply : SupplyDelta}
      (hfee : (s.fee.filter fun fee => fee.endsHold s.applies) = some fee)
        (hamount : fee.amount ≠ 0)
      (hjudged : judgeMovement (s.store.setFeeHold fee.vault s.tx none) fee.vault s.tx 0
        fee.amount =
        .ok after)
      (hcomposed : Composed moved fee composed)
      (hsupply : s.supply.burn fee.resource fee.amount = .ok supply) :
      Burned s moved
        { s with
          store := (s.store.setFeeHold fee.vault s.tx none).setAmount fee.vault after
          supply }
        (moved.insert fee.vault composed)

theorem burnFee_ok (h : s.burnFee moved = .ok (t, movements)) : s.Burned moved t movements := by
  unfold burnFee at h
  split at h
  · rename_i hfee
    cases h
    exact .elsewhere hfee
  · rename_i fee hfee
    dsimp only at h
    split at h
    · rename_i hzero
      cases h
      exact .nothing hfee hzero
    · rename_i hamount
      obtain ⟨⟨store, after⟩, happlied, composed, hcomposed, h⟩ := binds_ok.mp h
      obtain ⟨supply, hsupply, h⟩ := bind_ok.mp h
      cases h
      obtain ⟨hjudged, rfl⟩ := applyMovement_ok.mp (mapError_ok.mp happlied)
      obtain ⟨joined, hjoined, rfl⟩ := composeBurn_ok hcomposed
      exact .burned hfee hamount hjudged hjoined (mapError_ok.mp hsupply)

theorem Composed.resource (h : Composed moved fee composed) : composed.resource = fee.resource := by
  rcases h with ⟨-, rfl⟩ | ⟨standing, -, hcomposed⟩
  · rfl
  · obtain ⟨hresource, -, -, rfl⟩ := Movement.andThen_ok.mp hcomposed
    exact hresource

theorem Composed.debit (h : Composed moved fee composed) : fee.amount ≤ composed.debit := by
  rcases h with ⟨-, rfl⟩ | ⟨standing, -, hcomposed⟩
  · exact le_refl _
  · obtain ⟨-, -, -, rfl⟩ := Movement.andThen_ok.mp hcomposed
    exact Nat.le_add_left _ _

/-- One cell through the settlement of the reservations: none of this session's to settle,
released untaken, settled for what was taken of it, or recorded for the shard that owns it. -/
inductive Settlement (s : Session) (key : SubstateKey) (r : Row) : Row → Option Movement → Prop
  | aside (hout : key ∉ reservedKeys [] s.table ∨ s.judges key.owner = false) :
      Settlement s key r r none
  | released {resource : ResourceAddr} {held : ℕ} (hin : key ∈ reservedKeys [] s.table)
      (hjudges : s.judges key.owner = true) (hholds : s.cellHolds key = some resource)
      (htaken : s.takenAgainst key = some 0) (hheld : r.holds[s.tx]? = some held) :
      Settlement s key r (r.setHold s.tx none) none
  | settled {resource : ResourceAddr} {taken : ℕ} {r' : Row} (hin : key ∈ reservedKeys [] s.table)
      (hjudges : s.judges key.owner = true) (hholds : s.cellHolds key = some resource)
      (htaken : s.takenAgainst key = some taken) (hspent : taken ≠ 0)
      (howned : s.applies key.owner = true)
      (hnets : Nets 0 (min taken ((r.holds[s.tx]?).getD 0)) r.cell r'.cell)
      (hrow : r' = { r.setHold s.tx none with cell := r'.cell }) :
      Settlement s key r r' (some (.ofDebit resource (min taken ((r.holds[s.tx]?).getD 0))))
  | recorded {resource : ResourceAddr} {taken held : ℕ} (hin : key ∈ reservedKeys [] s.table)
      (hjudges : s.judges key.owner = true) (hholds : s.cellHolds key = some resource)
      (htaken : s.takenAgainst key = some taken) (hspent : taken ≠ 0)
      (hremote : s.applies key.owner = false) (hheld : r.holds[s.tx]? = some held) :
      Settlement s key r (r.setHold s.tx none) (some (.ofDebit resource taken))

variable {r r' : Row} {store : OverlayStore} {taken : ℕ} {settled : Option ℕ}

theorem Settlement.holds
    (h : s.Settlement key r r' (some m)) : s.cellHolds key = some m.resource ∧ m.credit = 0 := by
  cases h with
  | settled _ _ hholds _ _ _ _ _ | recorded _ _ hholds _ _ _ _ => exact ⟨hholds, rfl⟩

def settleView (store : OverlayStore) (state : Session × ExtTreeMap SubstateKey Movement)
    (key : SubstateKey) : Session × Row × Option Movement :=
  ({ state.1 with store }, rowAt state.1.store key, state.2[key]?)

theorem Disposed.rowAt_other {key' : SubstateKey} (h : s.Disposed key taken store settled)
    (hne : key' ≠ key) :
    rowAt store key' = rowAt s.store key' := by
  cases h with
  | released | recorded => exact (ChangesRow.of_setHold s.store key s.tx none).other hne
  | settled spent owned stands covered =>
    exact (ChangesRow.of_settled s.store key s.tx _ _).other hne

theorem Disposed.settlement {resource : ResourceAddr} (h : s.Disposed key taken store settled)
    (hin : key ∈ reservedKeys [] s.table) (hjudges : s.judges key.owner = true)
    (hholds : s.cellHolds key = some resource) (htaken : s.takenAgainst key = some taken) :
    s.Settlement key (rowAt s.store key) (rowAt store key)
      (settled.map (Movement.ofDebit resource)) := by
  have hdropped := (ChangesRow.of_setHold s.store key s.tx none).at_key
  have hread : ∀ held, s.store.heldReservation key s.tx = held →
      (rowAt s.store key).holds[s.tx]? = held := by
    rintro held rfl
    exact OverlayStore.heldReservation_view s.store key s.tx
  cases h with
  | released hold =>
    have hrow := Settlement.released hin hjudges hholds htaken (hread _ hold)
    rw [← hdropped] at hrow
    exact hrow
  | recorded spent remote hold =>
    have hrow := Settlement.recorded hin hjudges hholds htaken spent remote (hread _ hold)
    rw [← hdropped] at hrow
    exact hrow
  | @settled _ standing spent owned stands covered =>
    have hof : amountOf (rowAt s.store key).cell = standing :=
      amountOf_of_ok (mapError_ok.mp stands)
    have hlt := amount_lt stands
    have hchanges :
      ChangesRow s.store (((reduceHold s.store key s.tx taken).setHold key s.tx none).setAmount
        key (standing - min taken ((s.store.heldReservation key s.tx).getD 0))) key _ :=
      .of_settled s.store key s.tx _ _
    have hrow := hchanges.at_key
    rw [← hread _ rfl] at covered hrow ⊢
    refine .settled hin hjudges hholds htaken spent owned ⟨?_, ?_, ?_⟩ ?_
    · rw [hof]
      exact covered
    · rw [hof]
      exact hlt
    · rw [hrow, hof]
      rfl
    · rw [hrow]

theorem settleView_eq {u u' : Session} {settles settles' : ExtTreeMap SubstateKey Movement}
    (h : settleView store (u', settles') key = settleView store (u, settles) key) :
    u' = { u with store := u'.store } ∧ rowAt u'.store key = rowAt u.store key ∧
      settles'[key]? = settles[key]? := by
  have hsession : ({ u' with store } : Session) = { u with store } := congrArg Prod.fst h
  refine ⟨?_, congrArg (fun x => x.2.1) h, congrArg (fun x => x.2.2) h⟩
  exact congrArg (fun w : Session => { w with store := u'.store }) hsession

theorem Settlement.of_store
    {m : Option Movement} (h : ({ s with store } : Session).Settlement key r r' m) :
    s.Settlement key r r' m := by
  cases h with
  | aside hout => exact .aside hout
  | released hin hjudges hholds htaken hheld => exact .released hin hjudges hholds htaken hheld
  | settled hin hjudges hholds htaken hspent howned hnets hrow =>
    exact .settled hin hjudges hholds htaken hspent howned hnets hrow
  | recorded hin hjudges hholds htaken hspent hremote hheld =>
    exact .recorded hin hjudges hholds htaken hspent hremote hheld

theorem settleReservations_rows {settles : ExtTreeMap SubstateKey Movement}
    (h : s.settleReservations = .ok (t, settles)) (key : SubstateKey) :
    t = { s with store := t.store } ∧
      s.Settlement key (rowAt s.store key) (rowAt t.store key) settles[key]? := by
  have hother : ∀ state key' state', settleReservation state key' = .ok state' → ∀ key, key ≠ key' →
      settleView s.store state' key = settleView s.store state key := by
    rintro ⟨u, sofar⟩ key' ⟨u', next⟩ hstep key hne
    rcases settleReservation_ok hstep with ⟨-, rfl, rfl⟩ |
      ⟨resource, taken, store, settled, -, -, -, hdisposed, rfl, rfl⟩
    · rfl
    have hrow := hdisposed.rowAt_other hne
    cases settled with
    | none => simp [settleView, hrow]
    | some amount =>
      simp [settleView, hrow, getElem?_insert_eq, Ne.symm hne]
  have hnodup : ((reservedKeys [] s.table).map id).Nodup := by
    rw [List.map_id]
    exact nodup_reservedKeys
  obtain ⟨hnone, hsome⟩ := foldlM_keyed hother hnodup h
  by_cases hin : key ∈ reservedKeys [] s.table
  · obtain ⟨⟨u, sofar⟩, ⟨u', next⟩, hstep, hread, hleft⟩ := hsome key hin
    obtain ⟨hu, hrow, hfresh⟩ := settleView_eq hread
    obtain ⟨ht, hrow', hsettled⟩ := settleView_eq hleft
    rcases settleReservation_ok hstep with ⟨hjudges, rfl, rfl⟩ |
      ⟨resource, taken, store, settled, hjudges, hholds, htaken, hdisposed, rfl, rfl⟩
    · refine ⟨?_, ?_⟩
      · rw [ht, hu]
      · rw [hrow', hrow, hsettled, hfresh]
        rw [hu] at hjudges
        exact .aside (.inr hjudges)
    · refine ⟨?_, ?_⟩
      · rw [ht, hu]
      · have hin : key ∈ reservedKeys [] u.table := by
          rw [hu]
          exact hin
        have hsettlement := hdisposed.settlement hin hjudges hholds htaken
        have hmade : ((settled.map fun amount => sofar.insert key (.ofDebit resource amount)).getD
            sofar)[key]? = settled.map (Movement.ofDebit resource) := by
          cases settled with
          | none => exact hfresh
          | some amount => simp
        rw [hrow, hu] at hsettlement
        rw [hrow', hsettled, hmade]
        exact hsettlement.of_store
  · have hkept := hnone key (by simpa using hin)
    obtain ⟨ht, hrow, hsettled⟩ := settleView_eq hkept
    refine ⟨ht, ?_⟩
    rw [hrow, hsettled]
    exact .aside (.inl hin)

theorem movements_holds {u : Session}
    (hmoved : mapEntriesM s.queuedMovement s.store.pendingMap = .ok moved)
    (hburned : u.Burned moved t movements) {key : SubstateKey} (hm : movements[key]? = some m) :
    s.cellHolds key = some m.resource ∨
      ∃ fee, (u.fee.filter fun fee => fee.endsHold u.applies) = some fee ∧ fee.vault = key ∧
        m.resource = fee.resource := by
  have hqueued : ∀ m, moved[key]? = some m → s.cellHolds key = some m.resource := by
    intro m hm
    rcases mapEntriesM_ok hmoved key with ⟨-, hnone⟩ | ⟨ops, c, -, hjudged, hsome⟩
    · rw [hnone] at hm
      cases hm
    · rw [hsome] at hm
      cases hm
      obtain ⟨resource, hholds, rfl⟩ := queuedMovement_ok hjudged
      exact hholds
  cases hburned with
  | elsewhere | nothing => exact .inl (hqueued m hm)
  | burned hfee _ _ hcomposed _ =>
    rw [getElem?_insert_eq] at hm
    split at hm
    · rename_i hvault
      cases hm
      exact .inr ⟨_, hfee, hvault, hcomposed.resource⟩
    · exact .inl (hqueued m hm)

structure Records (s : Session) (delta : StateDelta) : Prop where
  settles : ∀ key m, delta.settles[key]? = some m →
    s.cellHolds key = some m.resource ∧ m.credit = 0
  movements : ∀ key m, delta.movements[key]? = some m → s.cellHolds key = some m.resource ∨
    ∃ fee, (s.fee.filter fun fee => fee.endsHold s.applies) = some fee ∧ fee.vault = key ∧
      m.resource = fee.resource
  burn : ∀ fee, (s.fee.filter fun fee => fee.endsHold s.applies) = some fee → fee.amount ≠ 0 →
    ∃ m, delta.movements[fee.vault]? = some m ∧ fee.amount ≤ m.debit

variable {delta : StateDelta}

theorem accounts_records (h : s.accounts = .ok (t, delta)) : s.Records delta := by
  obtain ⟨s₁, moved, s₂, settles, s₃, movements, cells, -, hmoved, hsettled, hburned, -,
    -, -, rfl⟩ :=
    accounts_ok h
  obtain ⟨hqueued, -, folded, applied, -, rfl⟩ := judgeMovements_ok hmoved
  have hburned := burnFee_ok hburned
  have hrows := settleReservations_rows hsettled
  obtain ⟨u, rfl⟩ : ∃ u, s₂ = { s with store := u } := ⟨s₂.store, (hrows ⟨⟨0, .component⟩, 0⟩).1⟩
  constructor
  case settles =>
    intro key m hm
    have hsettlement := (hrows key).2
    rw [show settles[key]? = some m from hm] at hsettlement
    exact hsettlement.holds
  case movements => exact fun key m hm => movements_holds hqueued hburned hm
  case burn =>
    intro fee hfee hamount
    cases hburned with
    | elsewhere hnone => exact absurd (hnone.symm.trans hfee) (by simp)
    | nothing hsome hzero =>
      obtain rfl := some.inj (hsome.symm.trans hfee)
      exact absurd hzero hamount
    | burned hsome _ _ hcomposed _ =>
      obtain rfl := some.inj (hsome.symm.trans hfee)
      exact ⟨_, by simp, hcomposed.debit⟩

theorem cell_le_sideOf (side : ℕ × ℕ → ℕ) (hzero : side (0, 0) = 0) {settled : Movement}
    (hm : delta.movements[key]? = some m)
    (hsettled : delta.settles[key]? = some settled) (hresource : m.resource = settled.resource) :
    side (m.credit, m.debit) + side (settled.credit, settled.debit) ≤
      sideOf side (s.weights delta) m.resource := by
  have hmoved := sumBy_erase (fun _ => Movement.toward side m.resource)
    (m := delta.movements) (k := key)
  have hspent := sumBy_erase (fun _ => Movement.toward side m.resource)
    (m := delta.settles) (k := key)
  rw [hm, map_some, getD_some, Movement.toward, if_pos rfl] at hmoved
  rw [hsettled, map_some, getD_some, Movement.toward, if_pos hresource.symm] at hspent
  rw [sideOf_weights hzero]
  omega

theorem andThen_of_weighed (h : s.unconserved delta = none) {settled : Movement}
    (hm : delta.movements[key]? = some m)
    (hsettled : delta.settles[key]? = some settled) (hresource : m.resource = settled.resource) :
    m.andThen settled = some ⟨m.resource, m.credit + settled.credit, m.debit + settled.debit⟩ := by
  obtain ⟨hgained, hlost, -⟩ := unconserved_eq_none.mp h m.resource
  have hcredits := cell_le_sideOf (s := s) Prod.fst rfl hm hsettled hresource
  have hdebits := cell_le_sideOf (s := s) Prod.snd rfl hm hsettled hresource
  exact Movement.andThen_ok.mpr ⟨hresource, lt_of_le_of_lt hcredits hgained,
    lt_of_le_of_lt hdebits hlost, rfl⟩

end Session

end HyperscaleVm.Kernel

import HyperscaleVm.Kernel.Executor.Apply

/-!
# What an application leaves
-/

namespace HyperscaleVm.Kernel
open AmountLedger Library StateDelta OverlayStore
open Std (ExtTreeMap)

namespace StateDelta

variable (delta : StateDelta)

def written (key : SubstateKey) (cell : Option Bytes) : Option Bytes :=
  (delta.cells[key]?).getD cell

def credits (key : SubstateKey) : ℕ := ((delta.movements[key]?).map Movement.credit).getD 0

def debits (key : SubstateKey) : ℕ := ((delta.movements[key]?).map Movement.debit).getD 0

def settled (key : SubstateKey) : ℕ := ((delta.settles[key]?).map Movement.debit).getD 0

def moves (key : SubstateKey) : Bool :=
  (delta.movements[key]?).isSome || (delta.settles[key]?).isSome

def raisedAt (burn : Option FeeBurn) (key : SubstateKey) : ℕ :=
  delta.credits key - (delta.debits key - burnedAt burn key)

def landedEntry (key : EntryKey) (entry : Option Bytes) : Option Bytes :=
  (delta.entries[key]?).getD entry

end StateDelta

/-- A receipt carries its entry's burn: what is burned is in the movement of its vault. -/
def Carries (delta : StateDelta) (burn : Option FeeBurn) : Prop :=
  ∀ fee ∈ burn, 0 < fee.amount → ∃ movement, delta.movements[fee.vault]? = some movement ∧
    fee.amount ≤ movement.debit

section

variable {o o' u u' : OverlayStore} {delta : StateDelta} {tx : TxHash} {applies : OwnerSet}
  {burn : Option FeeBurn} {withheld : Bool} {key key' : SubstateKey}

theorem rowAt_putCell (o : OverlayStore) (target : SubstateKey) (change : Option Bytes)
    (log : List Access) (key : SubstateKey) :
    rowAt { o with log, active := { o.active with cells := o.active.cells.insert target change } }
        key =
      if key = target then { rowAt o key with cell := change } else rowAt o key := by
  simp only [rowAt, AmountLedger.view, OverlayStore.view, LedgerView.row, OverlayStore.cellValue,
    OverlayStore.effectiveHolds, OverlayStore.effectiveFeeHolds,
    OverlayStore.effectiveWithheldCredits, getElem?_insert_eq, eq_comm (a := target)]
  by_cases h : key = target <;> simp only [h, if_true, if_false]

theorem rowAt_applyCell (o : OverlayStore) (p : SubstateKey × Option Bytes) (key : SubstateKey) :
    rowAt (applyCell o p) key =
      if key = p.1 then { rowAt o key with cell := p.2 } else rowAt o key := by
  obtain ⟨target, change⟩ := p
  cases change with
  | none => exact rowAt_putCell o target none _ key
  | some value => exact rowAt_putCell o target (some value) _ key

theorem rowAt_applyCell_other (o : OverlayStore) (p : SubstateKey × Option Bytes)
    (key : SubstateKey) (h : key ≠ p.1) : rowAt (applyCell o p) key = rowAt o key := by
  rw [rowAt_applyCell, if_neg h]

theorem rowAt_applyEntry (o : OverlayStore) (p : EntryKey × Option Bytes) :
    rowAt (applyEntry o p) = rowAt o := by
  obtain ⟨target, change⟩ := p
  cases change <;> rfl

theorem applyMoved_ok {movement : Movement}
    (h : applyMoved tx burn withheld u (key, movement) = .ok u') :
    burnedAt burn key ≤ movement.debit ∧
      ((0 < burnedAt burn key ∧ movement.credit = 0 ∧ movement.debit = burnedAt burn key ∧ u' = u) ∨
        ∃ after, judgeMovement u key tx movement.credit (movement.debit - burnedAt burn key) =
            .ok after ∧ ChangesRow u u' key fun r => { r with
              cell := amountCell after
              withheld :=
                if withheld = true ∧ 0 < movement.credit - (movement.debit - burnedAt burn key)
                then r.withheld.insert tx (movement.credit - (movement.debit - burnedAt burn key))
                else r.withheld }) := by
  unfold applyMoved at h
  dsimp only at h
  split at h
  · cases h
  rename_i hburned
  have hle : burnedAt burn key ≤ movement.debit := Nat.not_lt.mp hburned
  refine ⟨hle, ?_⟩
  split at h
  · rename_i hskip
    cases h
    obtain ⟨hpos, hcredit, hdebit⟩ := hskip
    exact .inl ⟨hpos, hcredit, by omega, rfl⟩
  · obtain ⟨⟨w, after⟩, happlied, h⟩ := bind_ok.mp h
    obtain ⟨hjudged, rfl⟩ := applyMovement_ok.mp (mapError_ok.mp happlied)
    cases h
    refine .inr ⟨after, hjudged, ?_⟩
    have hset := ChangesRow.of_setAmount u key after
    split
    · exact hset.trans (.of_withholdCredit _ key tx _)
    · exact hset

theorem applySettle_ok {movement : Movement} (h : applySettle tx u (key, movement) = .ok u') :
    ∃ standing, amount u key = .ok standing ∧
      min movement.debit ((heldReservation u key tx).getD 0) ≤ standing ∧
      u' =
        ((u.setHold key tx (some (min movement.debit ((heldReservation u key tx).getD 0)))).setHold
        key tx none).setAmount key
          (standing - min movement.debit ((heldReservation u key tx).getD 0)) := by
  obtain ⟨⟨w, n⟩, hsettled, rfl⟩ := map_ok.mp (mapError_ok.mp h)
  obtain ⟨hheld, standing, hstanding, hle, hw⟩ := settle_ok.mp hsettled
  have hn : n = min movement.debit ((heldReservation u key tx).getD 0) := by
    have hcut := ChangesRow.of_setHold u key tx
      (some (min movement.debit ((heldReservation u key tx).getD 0)))
    rw [heldReservation_eq_row, reduceHold, hcut.at_key] at hheld
    simpa [Row.setHold, changeHold] using hheld.symm
  rw [reduceHold, amount_setHold] at hstanding
  subst hn
  exact ⟨standing, hstanding, hle, hw⟩

theorem applyBurn_ok (h : applyBurn tx burn u = .ok u') :
    (burn = none ∧ u' = u) ∨ ∃ fee, burn = some fee ∧
      ((fee.amount = 0 ∧ u' = u.setFeeHold fee.vault tx none) ∨ fee.amount ≠ 0 ∧
        ∃ after, judgeMovement (u.setFeeHold fee.vault tx none) fee.vault tx 0 fee.amount =
            .ok after ∧ u' = (u.setFeeHold fee.vault tx none).setAmount fee.vault after) := by
  unfold applyBurn at h
  split at h
  · cases h
    exact .inl ⟨rfl, rfl⟩
  rename_i fee
  dsimp only at h
  split at h
  · rename_i hzero
    cases h
    exact .inr ⟨fee, rfl, .inl ⟨hzero, rfl⟩⟩
  · rename_i hamount
    obtain ⟨⟨w, after⟩, happlied, rfl⟩ := map_ok.mp (mapError_ok.mp h)
    obtain ⟨hjudged, rfl⟩ := applyMovement_ok.mp happlied
    exact .inr ⟨fee, rfl, .inr ⟨hamount, after, hjudged, rfl⟩⟩

theorem nodup_owned {β : Type} (applies : OwnerSet) (m : ExtTreeMap SubstateKey β) :
    ((owned applies m).map Prod.fst).Nodup :=
  (nodup_keys m).sublist (List.filter_sublist.map _)

theorem mem_owned {β : Type} {m : ExtTreeMap SubstateKey β} {b : β} :
    (key, b) ∈ owned applies m ↔ m[key]? = some b ∧ applies key.owner = true := by
  simp [owned, mem_toList]

theorem rowAt_applyCells (hkey : applies key.owner = true) :
    rowAt ((owned applies delta.cells).foldl applyCell o) key =
      { rowAt o key with cell := delta.written key (rowAt o key).cell } := by
  obtain ⟨hnone, hsome⟩ := foldl_at_key rowAt_applyCell_other
    (nodup_owned applies delta.cells) o key
  unfold written
  cases hchange : delta.cells[key]? with
  | none =>
    refine hnone fun b hb => ?_
    rw [mem_owned, hchange] at hb
    cases hb.1
  | some change =>
    obtain ⟨u, hread, hleft⟩ := hsome change (mem_owned.mpr ⟨hchange, hkey⟩)
    rw [hleft, rowAt_applyCell, if_pos rfl, hread]
    rfl

theorem rowAt_applyEntries (l : List (EntryKey × Option Bytes)) (o : OverlayStore)
    (key : SubstateKey) : rowAt (l.foldl applyEntry o) key = rowAt o key :=
  congrFun (foldl_keeps rowAt_applyEntry l o) key

theorem rowAt_applyMoved_other (tx : TxHash) (burn : Option FeeBurn) (withheld : Bool)
    (u : OverlayStore) (p : SubstateKey × Movement) (u' : OverlayStore)
    (h : applyMoved tx burn withheld u p = .ok u') (key : SubstateKey) (hkey : key ≠ p.1) :
    rowAt u' key = rowAt u key := by
  obtain ⟨-, ⟨-, -, -, rfl⟩ | ⟨after, -, hchanges⟩⟩ := applyMoved_ok h
  · rfl
  · exact hchanges.other hkey

theorem rowAt_applySettle_other (tx : TxHash) (u : OverlayStore) (p : SubstateKey × Movement)
    (u' : OverlayStore) (h : applySettle tx u p = .ok u') (key : SubstateKey) (hkey : key ≠ p.1) :
    rowAt u' key = rowAt u key := by
  obtain ⟨standing, -, -, rfl⟩ := applySettle_ok h
  exact (ChangesRow.of_settled u p.1 tx _ _).other hkey

inductive MovedRow (delta : StateDelta) (tx : TxHash) (burn : Option FeeBurn) (withheld : Bool)
    (key : SubstateKey) (r r' : Row) : Prop where
  | untouched (hnone : delta.movements[key]? = none) (hrow : r' = r)
  | burnAlone (movement : Movement) (hmoved : delta.movements[key]? = some movement)
      (hburned : 0 < burnedAt burn key) (hcredit : movement.credit = 0)
      (hdebit : movement.debit = burnedAt burn key) (hrow : r' = r)
  | netted (movement : Movement) (hmoved : delta.movements[key]? = some movement)
      (hburned : burnedAt burn key ≤ movement.debit)
      (hnets : Nets movement.credit (movement.debit - burnedAt burn key) r.cell r'.cell)
      (hholds : r'.holds = r.holds) (hfees : r'.feeHolds = r.feeHolds)
      (hwithheld : r'.withheld = if withheld = true ∧ 0 < delta.raisedAt burn key then
        r.withheld.insert tx (delta.raisedAt burn key) else r.withheld)

theorem movedRow
    (h : (owned applies delta.movements).foldlM (applyMoved tx burn withheld) o = .ok o')
    (hkey : applies key.owner = true) :
    MovedRow delta tx burn withheld key (rowAt o key) (rowAt o' key) := by
  obtain ⟨hnone, hsome⟩ := foldlM_at_key (rowAt_applyMoved_other tx burn withheld)
    (nodup_owned applies delta.movements) h key
  cases hmoved : delta.movements[key]? with
  | none =>
    refine .untouched hmoved (hnone fun b hb => ?_)
    rw [mem_owned, hmoved] at hb
    cases hb.1
  | some movement =>
    obtain ⟨u, u', hstep, hread, hleft⟩ := hsome movement (mem_owned.mpr ⟨hmoved, hkey⟩)
    have hraised : delta.raisedAt burn key =
        movement.credit - (movement.debit - burnedAt burn key) := by
      simp [raisedAt, credits, debits, hmoved]
    obtain ⟨hle, ⟨hpos, hcredit, hdebit, rfl⟩ | ⟨after, hjudged, hchanges⟩⟩ := applyMoved_ok hstep
    · exact .burnAlone movement hmoved hpos hcredit hdebit (hleft.trans hread)
    have hnets := nets_of_judged hjudged
    have hrow := hleft.trans hchanges.at_key
    rw [← hraised, hread] at hrow
    rw [hread] at hnets
    refine .netted movement hmoved hle ?_ ?_ ?_ ?_
    · rw [hrow]
      exact hnets
    all_goals rw [hrow]

inductive SettledRow (delta : StateDelta) (tx : TxHash) (key : SubstateKey) (r r' : Row) :
    Prop where
  | untouched (hnone : delta.settles[key]? = none) (hrow : r' = r)
  | settled (movement : Movement) (hsettled : delta.settles[key]? = some movement)
      (hnets : Nets 0 (min movement.debit ((r.holds[tx]?).getD 0)) r.cell r'.cell)
      (hholds : r'.holds = r.holds.erase tx) (hfees : r'.feeHolds = r.feeHolds)
      (hwithheld : r'.withheld = r.withheld)

theorem settledRow (h : (owned applies delta.settles).foldlM (applySettle tx) o = .ok o')
    (hkey : applies key.owner = true) : SettledRow delta tx key (rowAt o key) (rowAt o' key) := by
  obtain ⟨hnone, hsome⟩ := foldlM_at_key (rowAt_applySettle_other tx)
    (nodup_owned applies delta.settles) h key
  cases hsettled : delta.settles[key]? with
  | none =>
    refine .untouched hsettled (hnone fun b hb => ?_)
    rw [mem_owned, hsettled] at hb
    cases hb.1
  | some movement =>
    obtain ⟨u, u', hstep, hread, hleft⟩ := hsome movement (mem_owned.mpr ⟨hsettled, hkey⟩)
    obtain ⟨standing, hstanding, hle, rfl⟩ := applySettle_ok hstep
    have hlt := amount_lt hstanding
    have hof : amountOf (rowAt u key).cell = standing := amountOf_of_ok (mapError_ok.mp hstanding)
    have hheld : heldReservation u key tx = (rowAt o key).holds[tx]? := by
      rw [heldReservation_eq_row, hread]
    have hrow := hleft.trans (ChangesRow.of_settled u key tx _ _).at_key
    rw [hheld] at hrow hle
    rw [hread] at hof hrow
    refine .settled movement hsettled ⟨?_, ?_, ?_⟩ ?_ ?_ ?_
    · rw [hof]
      omega
    · rw [hof]
      omega
    · rw [hrow, hof]
      rfl
    all_goals
      rw [hrow]
      rfl

inductive BurnedRow (tx : TxHash) (burn : Option FeeBurn) (key : SubstateKey) (r r' : Row) :
    Prop where
  | untouched (hnone : ∀ fee ∈ burn, fee.vault ≠ key) (hrow : r' = r)
  | held (fee : FeeBurn) (hburn : burn = some fee) (hvault : fee.vault = key)
      (hzero : fee.amount = 0)
      (hrow : r' = r.setFeeHold tx none)
  | burned (fee : FeeBurn) (hburn : burn = some fee) (hvault : fee.vault = key)
      (hamount : fee.amount ≠ 0) (hnets : Nets 0 fee.amount r.cell r'.cell)
      (hrow : r' = { r.setFeeHold tx none with cell := r'.cell })

theorem burnedRow (h : applyBurn tx burn o = .ok o') :
    BurnedRow tx burn key (rowAt o key) (rowAt o' key) := by
  rcases applyBurn_ok h with ⟨rfl, rfl⟩ | ⟨fee, rfl, hcases⟩
  · exact .untouched (by simp) rfl
  have hended : ChangesRow o (o.setFeeHold fee.vault tx none) fee.vault (·.setFeeHold tx none) :=
    .of_setFeeHold o fee.vault tx none
  have hset : ∀ after, ChangesRow o ((o.setFeeHold fee.vault tx none).setAmount fee.vault after)
      fee.vault _ := fun after => hended.trans (.of_setAmount _ fee.vault after)
  by_cases hvault : key = fee.vault
  · subst hvault
    rcases hcases with ⟨hzero, rfl⟩ | ⟨hamount, after, hjudged, rfl⟩
    · exact .held fee rfl rfl hzero hended.at_key
    have hnets := nets_of_judged hjudged
    rw [hended.at_key] at hnets
    refine .burned fee rfl rfl hamount ?_ ?_
    · rw [(hset after).at_key]
      exact hnets
    · rw [(hset after).at_key]
      rfl
  · refine .untouched (fun other hother => ?_) ?_
    · cases hother
      exact Ne.symm hvault
    · rcases hcases with ⟨-, rfl⟩ | ⟨-, after, -, rfl⟩
      · exact hended.other hvault
      · exact (hset after).other hvault

theorem applyDelta_phases (h : applyDelta o delta tx applies burn withheld = .ok o') :
    ∃ moved settled, (owned applies delta.movements).foldlM (applyMoved tx burn withheld)
        ((ownedEntries applies delta.entries).foldl applyEntry
          ((owned applies delta.cells).foldl applyCell o)) = .ok moved ∧
      (owned applies delta.settles).foldlM (applySettle tx) moved = .ok settled ∧
      applyBurn tx burn settled = .ok o' := by
  obtain ⟨moved, hmoved, settled, hsettled, h⟩ := binds_ok.mp h
  exact ⟨moved, settled, hmoved, hsettled, h⟩

theorem burnedAt_eq_zero (h : ∀ fee ∈ burn, fee.vault ≠ key) : burnedAt burn key = 0 := by
  unfold burnedAt
  cases burn with
  | none => rfl
  | some fee => simp [Option.filter, h fee rfl]

theorem burnedAt_vault (fee : FeeBurn) : burnedAt (some fee) fee.vault = fee.amount := by
  simp [burnedAt, Option.filter]

theorem SettledRow.nets {r r' : Row} (h : SettledRow delta tx key r r')
    (hheld : ∀ movement, delta.settles[key]? = some movement →
      movement.debit ≤ (r.holds[tx]?).getD 0) :
    (delta.settles[key]? = none ∧ delta.settled key = 0 ∧ r'.cell = r.cell) ∨
      ((delta.settles[key]?).isSome = true ∧ Nets 0 (delta.settled key) r.cell r'.cell) := by
  cases h with
  | untouched hnone hrow =>
    refine .inl ⟨hnone, ?_, congrArg Row.cell hrow⟩
    simp [StateDelta.settled, hnone]
  | settled movement hsettled hnets _ _ _ =>
    have hall : delta.settled key = movement.debit := by simp [StateDelta.settled, hsettled]
    rw [min_eq_left (hheld movement hsettled), ← hall] at hnets
    exact .inr ⟨by simp [hsettled], hnets⟩

theorem BurnedRow.nets {r r' : Row} (h : BurnedRow tx burn key r r') :
    (burnedAt burn key = 0 ∧ r'.cell = r.cell) ∨
      (0 < burnedAt burn key ∧ Nets 0 (burnedAt burn key) r.cell r'.cell) := by
  cases h with
  | untouched hnone hrow => exact .inl ⟨burnedAt_eq_zero hnone, congrArg Row.cell hrow⟩
  | held fee hburn hvault hzero hrow =>
    subst hburn hvault
    refine .inl ⟨(burnedAt_vault fee).trans hzero, ?_⟩
    rw [hrow]
    rfl
  | burned fee hburn hvault hamount hnets hrow =>
    subst hburn hvault
    rw [burnedAt_vault]
    exact .inr ⟨pos_of_ne_zero hamount, hnets⟩

theorem StateDelta.moved_eq {movement : Movement} (h : delta.movements[key]? = some movement) :
    delta.moves key = true ∧ delta.credits key = movement.credit ∧
      delta.debits key = movement.debit := by
  simp [moves, credits, debits, h]

theorem Carries.burnedAt_eq_zero (h : Carries delta burn) (hnone : delta.movements[key]? = none) :
    burnedAt burn key = 0 := by
  cases burn with
  | none => rfl
  | some fee =>
    by_cases hvault : fee.vault = key
    · subst hvault
      rw [burnedAt_vault]
      by_contra hamount
      obtain ⟨movement, hmoved, -⟩ := h fee rfl (pos_of_ne_zero hamount)
      rw [hnone] at hmoved
      cases hmoved
    · refine Kernel.burnedAt_eq_zero fun other hother => ?_
      cases hother
      exact hvault

theorem nets_of_rows {r₁ r₂ r₃ r₄ : Row} {cell : Option Bytes} (hcarries : Carries delta burn)
    (hwritten : r₁.cell = delta.written key cell)
    (hmoved : MovedRow delta tx burn withheld key r₁ r₂) (hsettled : SettledRow delta tx key r₂ r₃)
    (hburned : BurnedRow tx burn key r₃ r₄)
    (hheld : ∀ movement, delta.settles[key]? = some movement →
      movement.debit ≤ (r₂.holds[tx]?).getD 0) :
    (delta.moves key = false ∧ r₄.cell = delta.written key cell) ∨ (delta.moves key = true ∧
      Nets (delta.credits key) (delta.debits key + delta.settled key) (delta.written key cell)
        r₄.cell) := by
  have hsettled := hsettled.nets hheld
  have hburned := hburned.nets
  cases hmoved with
  | untouched hnone hrow =>
    -- nothing is burned where nothing moves: the settlement alone
    have hzero := hcarries.burnedAt_eq_zero hnone
    obtain ⟨-, hleft⟩ | ⟨hpos, -⟩ := hburned
    · have hcredits : delta.credits key = 0 := by simp [credits, hnone]
      have hdebits : delta.debits key = 0 := by simp [debits, hnone]
      rw [hrow, hwritten] at hsettled
      rcases hsettled with ⟨hsettles, -, hcell⟩ | ⟨hsettles, hnets⟩
      · refine .inl ⟨?_, hleft.trans hcell⟩
        simp [moves, hnone, hsettles]
      · refine .inr ⟨by simp [moves, hsettles], ?_⟩
        rwa [hleft, hcredits, hdebits, zero_add]
    · omega
  | burnAlone movement hmoved hpos hcredit hdebit hrow =>
    obtain ⟨hmoves, hcredits, hdebits⟩ := delta.moved_eq hmoved
    obtain ⟨hzero, -⟩ | ⟨-, hburn⟩ := hburned
    · omega
    rw [hrow, hwritten] at hsettled
    refine .inr ⟨hmoves, ?_⟩
    rw [hcredits, hcredit, hdebits, hdebit]
    rcases hsettled with ⟨-, hzero, hcell⟩ | ⟨-, hnets⟩
    · rwa [hzero, add_zero, ← hcell]
    · rw [add_comm]
      exact hnets.andDebit hburn
  | netted movement hmoved hle hnets _ _ _ =>
    obtain ⟨hmoves, hcredits, hdebits⟩ := delta.moved_eq hmoved
    rw [hwritten] at hnets
    have hthrough : Nets movement.credit (movement.debit - burnedAt burn key + delta.settled key)
        (delta.written key cell) r₃.cell := by
      rcases hsettled with ⟨-, hzero, hcell⟩ | ⟨-, hnets'⟩
      · rwa [hzero, add_zero, hcell]
      · exact hnets.andDebit hnets'
    refine .inr ⟨hmoves, ?_⟩
    rw [hcredits, hdebits]
    rcases hburned with ⟨hzero, hcell⟩ | ⟨-, hburn⟩
    · rw [hzero, Nat.sub_zero] at hthrough
      rwa [hcell]
    · have hsum : movement.debit + delta.settled key =
          movement.debit - burnedAt burn key + delta.settled key + burnedAt burn key := by omega
      rw [hsum]
      exact hthrough.andDebit hburn

theorem MovedRow.rest {r r' : Row} (h : MovedRow delta tx burn withheld key r r') :
    r'.holds = r.holds ∧ r'.feeHolds = r.feeHolds ∧
      r'.withheld = if withheld = true ∧ 0 < delta.raisedAt burn key then
        r.withheld.insert tx (delta.raisedAt burn key) else r.withheld := by
  cases h with
  | untouched hnone hrow =>
    have hraised : delta.raisedAt burn key = 0 := by
      simp [raisedAt, credits, hnone]
    simp [hrow, hraised]
  | burnAlone movement hmoved _ hcredit _ hrow =>
    have hraised : delta.raisedAt burn key = 0 := by
      simp [raisedAt, credits, hmoved, hcredit]
    simp [hrow, hraised]
  | netted _ _ _ _ hholds hfees hwithheld => exact ⟨hholds, hfees, hwithheld⟩

theorem applyDelta_nets (h : applyDelta o delta tx applies burn withheld = .ok o')
    (hcarries : Carries delta burn) (hkey : applies key.owner = true)
    (hheld : ∀ movement, delta.settles[key]? = some movement →
      movement.debit ≤ (heldReservation o key tx).getD 0) :
    (delta.moves key = false ∧ (rowAt o' key).cell = delta.written key (rowAt o key).cell) ∨
      (delta.moves key = true ∧ Nets (delta.credits key) (delta.debits key + delta.settled key)
        (delta.written key (rowAt o key).cell) (rowAt o' key).cell) := by
  obtain ⟨moved, settled, hmoved, hsettled, hburned⟩ := applyDelta_phases h
  have hmoved := movedRow hmoved hkey
  rw [rowAt_applyEntries, rowAt_applyCells hkey] at hmoved
  refine nets_of_rows hcarries rfl hmoved (settledRow hsettled hkey) (burnedRow hburned) ?_
  intro movement hmovement
  rw [hmoved.rest.1]
  exact hheld movement hmovement

theorem applyDelta_foreign (h : applyDelta o delta tx applies burn withheld = .ok o')
    (hburn : ∀ fee ∈ burn, applies fee.vault.owner = true) (hkey : applies key.owner = false) :
    rowAt o' key = rowAt o key := by
  obtain ⟨moved, settled, hmoved, hsettled, hburned⟩ := applyDelta_phases h
  have hforeign : ∀ {β : Type} (m : ExtTreeMap SubstateKey β) b, (key, b) ∉ owned applies m := by
    intro β m b hb
    rw [mem_owned, hkey] at hb
    cases hb.2
  have hcells := (foldl_at_key rowAt_applyCell_other (nodup_owned applies delta.cells) o
    key).1 fun b => hforeign _ b
  have hmoved := (foldlM_at_key (rowAt_applyMoved_other tx burn withheld)
    (nodup_owned applies delta.movements) hmoved key).1 fun b => hforeign _ b
  have hsettled := (foldlM_at_key (rowAt_applySettle_other tx)
    (nodup_owned applies delta.settles) hsettled key).1 fun b => hforeign _ b
  have hburned : rowAt o' key = rowAt settled key := by
    have hrow : BurnedRow tx burn key (rowAt settled key) (rowAt o' key) := burnedRow hburned
    cases hrow with
    | untouched _ hrow => exact hrow
    | held fee hsome hvault _ _ | burned fee hsome hvault _ _ _ =>
      have howned := hburn fee hsome
      rw [hvault, hkey] at howned
      cases howned
  rw [hburned, hsettled, hmoved, rowAt_applyEntries, hcells]

def OverlayStore.below (o : OverlayStore) : Baseline × Layer := (o.base, o.committed)

def OverlayStore.unledgered (o : OverlayStore) :
    (Baseline × Layer) × ExtTreeMap EntryKey (Option Bytes) := (o.below, o.active.entries)

theorem unledgered_applyMoved (tx : TxHash) (burn : Option FeeBurn) (withheld : Bool)
    (u : OverlayStore) (p : SubstateKey × Movement) (u' : OverlayStore)
    (h : applyMoved tx burn withheld u p = .ok u') : u'.unledgered = u.unledgered := by
  unfold applyMoved at h
  dsimp only at h
  split at h
  · cases h
  split at h
  · cases h
    rfl
  · obtain ⟨⟨w, after⟩, happlied, h⟩ := bind_ok.mp h
    obtain ⟨-, rfl⟩ := applyMovement_ok.mp (mapError_ok.mp happlied)
    cases h
    split <;> rfl

theorem unledgered_applySettle (tx : TxHash) (u : OverlayStore) (p : SubstateKey × Movement)
    (u' : OverlayStore) (h : applySettle tx u p = .ok u') : u'.unledgered = u.unledgered := by
  obtain ⟨standing, -, -, rfl⟩ := applySettle_ok h
  rfl

theorem unledgered_applyBurn (h : applyBurn tx burn u = .ok u') : u'.unledgered = u.unledgered := by
  rcases applyBurn_ok h with ⟨-, rfl⟩ | ⟨fee, -, ⟨-, rfl⟩ | ⟨-, after, -, rfl⟩⟩ <;> rfl

theorem unledgered_applyCell (o : OverlayStore) (p : SubstateKey × Option Bytes) :
    (applyCell o p).unledgered = o.unledgered := by
  obtain ⟨target, change⟩ := p
  cases change <;> rfl

theorem unledgered_applyDelta (h : applyDelta o delta tx applies burn withheld = .ok o') :
    o'.unledgered = ((ownedEntries applies delta.entries).foldl applyEntry
      ((owned applies delta.cells).foldl applyCell o)).unledgered := by
  obtain ⟨moved, settled, hmoved, hsettled, hburned⟩ := applyDelta_phases h
  have hmoved := foldlM_keeps (unledgered_applyMoved tx burn withheld) hmoved
  have hsettled := foldlM_keeps (unledgered_applySettle tx) hsettled
  exact ((unledgered_applyBurn hburned).trans hsettled).trans hmoved

theorem entryValue_of_unledgered (h : o'.unledgered = o.unledgered) (key : EntryKey) :
    o'.entryValue key = o.entryValue key := by
  have hactive : o'.active.entries = o.active.entries := congrArg Prod.snd h
  have hbase : o'.base = o.base := congrArg (fun x => x.1.1) h
  have hcommitted : o'.committed = o.committed := congrArg (fun x => x.1.2) h
  simp only [OverlayStore.entryValue, OverlayStore.preActiveEntry, hactive, hbase, hcommitted]

theorem entryValue_putEntry (o : OverlayStore) (target : EntryKey) (change : Option Bytes)
    (log : List Access) (key : EntryKey) : entryValue { o with
      log, active := { o.active with entries := o.active.entries.insert target change } } key =
      if key = target then change else o.entryValue key := by
  simp only [entryValue, preActiveEntry, getElem?_insert_eq,
    eq_comm (a := target)]
  by_cases h : key = target <;> simp only [h, if_true, if_false]

theorem entryValue_applyEntry (o : OverlayStore) (p : EntryKey × Option Bytes) (key : EntryKey) :
    (applyEntry o p).entryValue key = if key = p.1 then p.2 else o.entryValue key := by
  obtain ⟨target, change⟩ := p
  cases change with
  | none => exact entryValue_putEntry o target none _ key
  | some value => exact entryValue_putEntry o target (some value) _ key

theorem mem_ownedEntries {m : ExtTreeMap EntryKey (Option Bytes)} {key : EntryKey}
    {change : Option Bytes} :
    (key, change) ∈ ownedEntries applies m ↔ m[key]? = some change ∧ applies key.owner = true := by
  simp [ownedEntries, mem_toList]

theorem applyDelta_entries (h : applyDelta o delta tx applies burn withheld = .ok o')
    (key : EntryKey) : o'.entryValue key =
      if applies key.owner then delta.landedEntry key (o.entryValue key) else o.entryValue key := by
  have hnodup : ((ownedEntries applies delta.entries).map Prod.fst).Nodup :=
    (nodup_keys delta.entries).sublist (List.filter_sublist.map _)
  have hother : ∀ (o : OverlayStore) (p : EntryKey × Option Bytes) a, a ≠ p.1 →
      (applyEntry o p).entryValue a = o.entryValue a := by
    intro o p a ha
    rw [entryValue_applyEntry, if_neg ha]
  have hcells := entryValue_of_unledgered
    (foldl_keeps unledgered_applyCell (owned applies delta.cells) o) key
  obtain ⟨hnone, hsome⟩ := foldl_at_key hother hnodup
    ((owned applies delta.cells).foldl applyCell o) key
  rw [entryValue_of_unledgered (unledgered_applyDelta h)]
  unfold landedEntry
  split
  · rename_i howned
    cases hchange : delta.entries[key]? with
    | none =>
      refine (hnone fun b hb => ?_).trans hcells
      rw [mem_ownedEntries, hchange] at hb
      cases hb.1
    | some change =>
      obtain ⟨u, hread, hleft⟩ := hsome change (mem_ownedEntries.mpr ⟨hchange, howned⟩)
      rw [hleft, entryValue_applyEntry, if_pos rfl]
      rfl
  · rename_i howned
    refine (hnone fun b hb => ?_).trans hcells
    exact howned (mem_ownedEntries.mp hb).2

end

end HyperscaleVm.Kernel

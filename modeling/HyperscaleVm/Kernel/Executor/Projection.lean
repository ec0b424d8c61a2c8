import HyperscaleVm.Kernel.Executor.Landing
import HyperscaleVm.Kernel.Session.Completed

/-!
# What a receipt projects to (`locality.rs`, `types/src/writes.rs`)
-/

namespace HyperscaleVm.Kernel
open List Option Library
open Std (ExtTreeMap)

structure StateWrites where
  cells : ExtTreeMap SubstateKey (Option Bytes)
  movements : ExtTreeMap SubstateKey Movement
  entries : ExtTreeMap EntryKey (Option Bytes)

structure SettledWrites where
  cells : ExtTreeMap SubstateKey (Option Bytes)
  entries : ExtTreeMap EntryKey (Option Bytes)

structure OverDebit where
  key : SubstateKey
  held : ℕ
  debit : ℕ

def Movement.onto (m : Movement) : Option Movement → Option Movement
  | some standing => standing.andThen m
  | none => some m

def joinMovement (movements : ExtTreeMap SubstateKey Movement) (p : SubstateKey × Movement) :
    Option (ExtTreeMap SubstateKey Movement) :=
  (p.2.onto movements[p.1]?).map fun joined => movements.insert p.1 joined

def StateDelta.project (delta : StateDelta) (applies : OwnerSet) : Option StateWrites := do
  let movements ← (owned applies delta.movements ++ owned applies delta.settles).foldlM
    joinMovement ∅
  return ⟨delta.cells.filter fun key _ => applies key.owner, movements,
    delta.entries.filter fun key _ => applies key.owner⟩

/-- A net credit lands what fits, a debit past the balance nothing. -/
def Movement.apply (m : Movement) (before : ℕ) : Option ℕ :=
  if m.debit ≤ m.credit then
    let net := m.credit - m.debit
    let room := AMOUNT_BOUND - 1 - before
    some (if room < net then AMOUNT_BOUND - 1 else before + net)
  else if m.debit - m.credit ≤ before then some (before - (m.debit - m.credit))
  else none

def resolveMovement (prior : SubstateKey → Option Bytes)
    (cells : ExtTreeMap SubstateKey (Option Bytes)) (p : SubstateKey × Movement) :
    Except OverDebit (ExtTreeMap SubstateKey (Option Bytes)) :=
  let before := amountOf ((cells[p.1]?).getD (prior p.1))
  match p.2.apply before with
  | some after => .ok (cells.insert p.1 (amountCell after))
  | none => .error ⟨p.1, before, p.2.debit - p.2.credit⟩

def StateWrites.resolve (writes : StateWrites) (prior : SubstateKey → Option Bytes) :
    Except OverDebit SettledWrites := do
  let cells ← writes.movements.toList.foldlM (resolveMovement prior) writes.cells
  return ⟨cells, writes.entries⟩

theorem joinMovements_some {l : List (SubstateKey × Movement)} (hnodup : (l.map Prod.fst).Nodup)
    (movements : ExtTreeMap SubstateKey Movement)
    (hjoins : ∀ p ∈ l, (p.2.onto movements[p.1]?).isSome = true) :
    ∃ joined, l.foldlM joinMovement movements = some joined ∧
      (∀ key, key ∉ l.map Prod.fst → joined[key]? = movements[key]?) ∧
      ∀ p ∈ l, joined[p.1]? = p.2.onto movements[p.1]? := by
  induction l generalizing movements with
  | nil => exact ⟨movements, rfl, fun _ _ => rfl, fun p hp => by cases hp⟩
  | cons p l ih =>
    obtain ⟨hfresh, hnodup⟩ := nodup_cons.mp hnodup
    obtain ⟨m, hm⟩ := isSome_iff_exists.mp (hjoins p mem_cons_self)
    have hother : ∀ q ∈ l, (movements.insert p.1 m)[q.1]? = movements[q.1]? := by
      intro q hq
      rw [getElem?_insert_eq, if_neg]
      rintro heq
      exact hfresh (heq ▸ mem_map_of_mem hq)
    have hrest : ∀ q ∈ l, (q.2.onto (movements.insert p.1 m)[q.1]?).isSome = true := by
      intro q hq
      rw [hother q hq]
      exact hjoins q (mem_cons_of_mem _ hq)
    obtain ⟨joined, hjoined, hout, hin⟩ := ih hnodup _ hrest
    refine ⟨joined, ?_, ?_, ?_⟩
    · rw [foldlM_cons, joinMovement, hm]
      exact hjoined
    · intro key hkey
      rw [map_cons, mem_cons, not_or] at hkey
      rw [hout key hkey.2, getElem?_insert_eq, if_neg (Ne.symm hkey.1)]
    · intro q hq
      rcases mem_cons.mp hq with rfl | hq
      · rw [hout _ hfresh, getElem?_insert_eq, if_pos rfl, hm]
      · rw [hin q hq, hother q hq]

theorem getElem?_restrict {κ β : Type} [LinearOrder κ] {m : ExtTreeMap κ β} (keep : κ → Bool)
    (key : κ) : (m.filter fun key _ => keep key)[key]? = if keep key then m[key]? else none := by
  rw [ExtTreeMap.getElem?_filter']
  cases m[key]? with
  | none => simp
  | some b =>
    cases keep key with
    | false | true => simp [Option.filter]

theorem joinOwned_some (applies : OwnerSet) (m movements : ExtTreeMap SubstateKey Movement)
    (hjoins : ∀ (key : SubstateKey) (moved : Movement), applies key.owner = true →
      m[key]? = some moved → (moved.onto movements[key]?).isSome = true) :
    ∃ joined, (owned applies m).foldlM joinMovement movements = some joined ∧
      ∀ key : SubstateKey, joined[key]? =
        match if applies key.owner then m[key]? else none with
        | some (moved : Movement) => moved.onto movements[key]?
        | none => movements[key]? := by
  obtain ⟨joined, hjoined, hout, hin⟩ := joinMovements_some (nodup_owned applies m) movements (by
    rintro ⟨key, moved⟩ hp
    obtain ⟨hget, howned⟩ := mem_owned.mp hp
    exact hjoins key moved howned hget)
  refine ⟨joined, hjoined, fun key => ?_⟩
  split
  · rename_i moved hmoved
    rw [ite_eq_iff] at hmoved
    obtain ⟨howned, hget⟩ | ⟨-, hnone⟩ := hmoved
    · exact hin (key, moved) (mem_owned.mpr ⟨hget, howned⟩)
    · cases hnone
  · rename_i hnone
    refine hout key fun hmem => ?_
    obtain ⟨⟨key', moved⟩, hp, rfl⟩ := mem_map.mp hmem
    obtain ⟨hget, howned⟩ := mem_owned.mp hp
    rw [howned, if_pos rfl, hget] at hnone
    cases hnone

namespace StateDelta

def netted (delta : StateDelta) (key : SubstateKey) : Option Movement :=
  match delta.settles[key]? with
  | some settled => settled.onto delta.movements[key]?
  | none => delta.movements[key]?

theorem project_some (delta : StateDelta) (applies : OwnerSet)
    (hjoins : ∀ (key : SubstateKey) (settled : Movement), applies key.owner = true →
      delta.settles[key]? = some settled → (settled.onto delta.movements[key]?).isSome = true) :
    ∃ writes, delta.project applies = some writes ∧
      (∀ key : SubstateKey, writes.movements[key]? = if applies key.owner then
        delta.netted key else none) ∧
      (∀ key : SubstateKey, writes.cells[key]? = if applies key.owner then
        delta.cells[key]? else none) ∧
      ∀ key : EntryKey, writes.entries[key]? = if applies key.owner then
        delta.entries[key]? else none := by
  obtain ⟨moved, hmoved, hreads⟩ := joinOwned_some applies delta.movements ∅
    (by simp [Movement.onto])
  have hreads' : ∀ key : SubstateKey, moved[key]? = if applies key.owner then
      delta.movements[key]? else none := by
    intro key
    rw [hreads]
    split
    · rename_i m hm
      rw [hm]
      simp [Movement.onto]
    · rename_i hnone
      rw [hnone]
      simp
  obtain ⟨joined, hjoined, hreads₂⟩ := joinOwned_some applies delta.settles moved (by
    intro key settled howned hget
    rw [hreads', howned]
    exact hjoins key settled howned hget)
  refine ⟨⟨delta.cells.filter fun key _ => applies key.owner, joined,
    delta.entries.filter fun key _ => applies key.owner⟩, ?_, ?_, ?_, ?_⟩
  · unfold project
    rw [foldlM_append, hmoved]
    simp only [bind_eq_bind, bind_some, hjoined]
    rfl
  · intro key
    dsimp only
    rw [hreads₂, hreads']
    cases applies key.owner <;> rfl
  · exact fun key => getElem?_restrict (fun key => applies key.owner) key
  · exact fun key => getElem?_restrict (fun key => applies key.owner) key

end StateDelta

theorem Nets.apply {m : Movement} {cell cell' : Option Bytes}
    (h : Nets m.credit m.debit cell cell') :
    ∃ after, m.apply (amountOf cell) = some after ∧ cell' = amountCell after := by
  have hcovered := h.covered
  have hfits := h.fits
  refine ⟨amountOf cell + m.credit - m.debit, ?_, h.left⟩
  unfold Movement.apply
  split
  · rename_i hle
    dsimp only
    rw [if_neg (by omega)]
    congr 1
    omega
  · rename_i hle
    rw [if_pos (by omega)]
    congr 1
    omega

def settledCell (prior : SubstateKey → Option Bytes) (cells : ExtTreeMap SubstateKey (Option Bytes))
    (key : SubstateKey) : Option Bytes := (cells[key]?).getD (prior key)

theorem settledCell_resolveMovement {prior : SubstateKey → Option Bytes}
    {cells cells' : ExtTreeMap SubstateKey (Option Bytes)} {p : SubstateKey × Movement}
    (h : resolveMovement prior cells p = .ok cells') : ∃ after,
      p.2.apply (amountOf (settledCell prior cells p.1)) = some after ∧
        cells' = cells.insert p.1 (amountCell after) := by
  unfold resolveMovement at h
  dsimp only at h
  split at h
  · rename_i after hafter
    cases h
    exact ⟨after, hafter, rfl⟩
  · cases h

theorem StateWrites.resolve_ok (writes : StateWrites) (prior : SubstateKey → Option Bytes)
    (hcovered : ∀ (key : SubstateKey) (m : Movement), writes.movements[key]? = some m →
      ∃ after, m.apply (amountOf (settledCell prior writes.cells key)) = some after) :
    ∃ settled, writes.resolve prior = .ok settled ∧ settled.entries = writes.entries ∧
      (∀ key : SubstateKey, writes.movements[key]? = none →
        settledCell prior settled.cells key = settledCell prior writes.cells key) ∧
      ∀ (key : SubstateKey) (m : Movement), writes.movements[key]? = some m → ∃ after,
        m.apply (amountOf (settledCell prior writes.cells key)) = some after ∧
          settledCell prior settled.cells key = amountCell after := by
  have hother : ∀ cells p cells', resolveMovement prior cells p = .ok cells' → ∀ key, key ≠ p.1 →
      settledCell prior cells' key = settledCell prior cells key := by
    intro cells p cells' hstep key hkey
    obtain ⟨after, -, rfl⟩ := settledCell_resolveMovement hstep
    unfold settledCell
    rw [getElem?_insert_eq, if_neg (Ne.symm hkey)]
  have hnodup := nodup_keys writes.movements
  obtain ⟨cells, hcells⟩ : ∃ cells,
      writes.movements.toList.foldlM (resolveMovement prior) writes.cells = .ok cells := by
    refine foldlM_keyed_passes hother hnodup ?_
    rintro ⟨key, m⟩ hp cells hread
    obtain ⟨after, hafter⟩ := hcovered key m (mem_toList.mp hp)
    dsimp only at hread
    rw [← hread] at hafter
    refine ⟨cells.insert key (amountCell after), ?_⟩
    unfold settledCell at hafter
    simp only [resolveMovement, hafter]
  refine ⟨⟨cells, writes.entries⟩, ?_, rfl, ?_, ?_⟩
  · unfold StateWrites.resolve
    rw [hcells]
    rfl
  · intro key hnone
    refine (foldlM_at_key hother hnodup hcells key).1 fun m hm => ?_
    rw [mem_toList.mp hm] at hnone
    cases hnone
  · intro key m hm
    obtain ⟨u, u', hstep, hread, hleft⟩ :=
      (foldlM_at_key hother hnodup hcells key).2 m (mem_toList.mpr hm)
    obtain ⟨after, hafter, rfl⟩ := settledCell_resolveMovement hstep
    dsimp only at hafter
    rw [hread] at hafter
    refine ⟨after, hafter, hleft.trans ?_⟩
    unfold settledCell
    rw [getElem?_insert_eq, if_pos rfl, getD_some]

variable {delta : StateDelta}

theorem Session.Records.carries {s : Session} (h : s.Records delta)
    {applies : OwnerSet} (hburns : ∀ fee ∈ burnOf s.fee applies, fee.endsHold s.applies = true) :
    Carries delta (burnOf s.fee applies) := by
  intro fee hfee hamount
  have hsome : s.fee = some fee := (filter_eq_some_iff.mp hfee).1
  refine h.burn fee ?_ (Nat.pos_iff_ne_zero.mp hamount)
  exact filter_eq_some_iff.mpr ⟨hsome, hburns fee hfee⟩

variable {key : SubstateKey}

theorem Session.Records.joins {s t : Session} (h : s.Records delta)
    (hweighed : t.unconserved delta = none)
    (hfee : ∀ fee ∈ burnOf s.fee s.applies, ∀ resource, s.cellHolds fee.vault = some resource →
      resource = fee.resource) {settled m : Movement}
    (hsettled : delta.settles[key]? = some settled) (hmoved : delta.movements[key]? = some m) :
    m.andThen settled = some ⟨m.resource, m.credit + settled.credit, m.debit + settled.debit⟩ := by
  refine Session.andThen_of_weighed hweighed hmoved hsettled ?_
  have hholds := (h.settles key settled hsettled).1
  rcases h.movements key m hmoved with hm | ⟨fee, hburn, rfl, hm⟩
  · exact some.inj (hm.symm.trans hholds)
  · exact hm.trans (hfee fee hburn settled.resource hholds).symm

theorem StateDelta.netted_spec (key : SubstateKey)
    (hcredits : ∀ settled, delta.settles[key]? = some settled → settled.credit = 0)
    (hjoins : ∀ settled m, delta.settles[key]? = some settled → delta.movements[key]? = some m →
      m.andThen settled = some ⟨m.resource, m.credit + settled.credit, m.debit + settled.debit⟩) :
    match delta.netted key with
    | none => delta.moves key = false
    | some n => delta.moves key = true ∧ n.credit = delta.credits key ∧
        n.debit = delta.debits key + delta.settled key := by
  unfold netted moves credits debits StateDelta.settled
  cases hsettled : delta.settles[key]? with
  | none => cases delta.movements[key]? <;> simp
  | some settled =>
    cases hmoved : delta.movements[key]? with
    | none => simp [Movement.onto, hcredits settled hsettled]
    | some m => simp [Movement.onto, hjoins settled m hsettled hmoved, hcredits settled hsettled]

/-- The write set a completed receipt projects to resolves, on any store its application
lands on, to the cells and the entries the application leaves there. -/
theorem projection_agrees_with_application {s : Session} {answers : List Answer}
    {fuelByNode : List ℕ} {receipt : Receipt} {threaded : OverlayStore}
    (hfinish : s.finish answers fuelByNode = .ok (receipt, threaded))
    (hcompleted : receipt.outcome.isCompleted = true)
    (hfee : ∀ fee ∈ burnOf s.fee s.applies, ∀ resource, s.cellHolds fee.vault = some resource →
      resource = fee.resource) (applies : OwnerSet)
    (hburns : ∀ fee ∈ burnOf s.fee applies, fee.endsHold s.applies = true) :
    ∃ writes, receipt.delta.project applies = some writes ∧
      ∀ (o o' : OverlayStore) (withheld : Bool),
        (∀ key settled, receipt.delta.settles[key]? = some settled → applies key.owner = true →
          settled.debit ≤ (heldReservation o key s.tx).getD 0) →
        applyCompleted o receipt s.tx applies s.fee withheld = .ok (o', none) →
        ∃ settled, writes.resolve o.cellValue = .ok settled ∧
          (∀ key, o'.cellValue key = (settled.cells[key]?).getD (o.cellValue key)) ∧
          ∀ key, o'.entryValue key = (settled.entries[key]?).getD (o.entryValue key) := by
  obtain ⟨t, haccounts, hweighed, -⟩ := Session.finish_completed hfinish hcompleted
  have hrecords := Session.accounts_records haccounts
  have hjoins := fun (key : SubstateKey) (settled m : Movement)
      (hsettled : receipt.delta.settles[key]? = some settled)
      (hmoved : receipt.delta.movements[key]? = some m) =>
    hrecords.joins hweighed hfee hsettled hmoved
  have hnetted := fun key => receipt.delta.netted_spec key
    (fun settled hsettled => (hrecords.settles key settled hsettled).2) (hjoins key)
  have hcarries := hrecords.carries hburns
  obtain ⟨writes, hproject, hmovements, hcells, hentries⟩ := receipt.delta.project_some applies (by
    intro key settled _ hsettled
    cases hmoved : receipt.delta.movements[key]? with
    | none => rfl
    | some m => simp [Movement.onto, hjoins key settled m hsettled hmoved])
  refine ⟨writes, hproject, fun o o' withheld hheld happlied => ?_⟩
  have happlied := applyCompleted_ok.mp happlied
  have hvault : ∀ fee ∈ burnOf s.fee applies, applies fee.vault.owner = true :=
    fun fee hburn => (filter_eq_some_iff.mp hburn).2
  -- a cell the shard owns, as the write set reads it and as the application leaves it
  have howned : ∀ key : SubstateKey, applies key.owner = true →
      settledCell o.cellValue writes.cells key = receipt.delta.written key (o.cellValue key) := by
    intro key hkey
    unfold settledCell StateDelta.written
    rw [hcells, if_pos hkey]
  have hnets : ∀ key : SubstateKey, applies key.owner = true → _ := fun key hkey =>
    applyDelta_nets happlied hcarries hkey fun m hm => hheld key m hm hkey
  have hmoved : ∀ (key : SubstateKey) (m : Movement), writes.movements[key]? = some m →
      Nets m.credit m.debit (settledCell o.cellValue writes.cells key) (o'.cellValue key) := by
    intro key m hm
    rw [hmovements] at hm
    split at hm
    · rename_i hkey
      have hspec := hnetted key
      rw [hm] at hspec
      obtain ⟨hmoves, hcredit, hdebit⟩ := hspec
      rw [howned key hkey, hcredit, hdebit]
      rcases hnets key hkey with ⟨hnone, -⟩ | ⟨-, hnets⟩
      · rw [hmoves] at hnone
        cases hnone
      · exact hnets
    · cases hm
  obtain ⟨settled, hresolve, hsame, hstill, hlanded⟩ := writes.resolve_ok o.cellValue (by
    intro key m hm
    obtain ⟨after, hafter, -⟩ := (hmoved key m hm).apply
    exact ⟨after, hafter⟩)
  refine ⟨settled, hresolve, fun key => ?_, fun key => ?_⟩
  · change o'.cellValue key = settledCell o.cellValue settled.cells key
    cases hm : writes.movements[key]? with
    | some m =>
      obtain ⟨after, hafter, hcell⟩ := hlanded key m hm
      obtain ⟨after', hafter', hcell'⟩ := (hmoved key m hm).apply
      cases hafter.symm.trans hafter'
      exact hcell'.trans hcell.symm
    | none =>
      rw [hstill key hm]
      rw [hmovements] at hm
      by_cases hkey : applies key.owner = true
      · rw [if_pos hkey] at hm
        have hmoves := hnetted key
        rw [howned key hkey]
        rcases hnets key hkey with ⟨-, hcell⟩ | ⟨hsome, -⟩
        · exact hcell
        · rw [hm, hsome] at hmoves
          cases hmoves
      · have hrow : rowAt o' key = rowAt o key :=
          applyDelta_foreign happlied hvault (by simpa using hkey)
        have hcell : o'.cellValue key = o.cellValue key := congrArg Row.cell hrow
        unfold settledCell
        rw [hcells, if_neg hkey, getD_none, hcell]
  · rw [applyDelta_entries happlied, hsame, hentries]
    split <;> rfl

def tollgate : Address := ⟨1, .component⟩

def farGate : Address := ⟨2, .component⟩

def purse : SubstateKey := ⟨tollgate, 1⟩

def chest : SubstateKey := ⟨tollgate, 2⟩

def farPurse : SubstateKey := ⟨farGate, 1⟩

def toll : ResourceAddr := .numbered 7

def scrip : ResourceAddr := .numbered 8

def tolling : Effects.Declaration :=
  declaring [⟨⟨.point purse, .reserve 5⟩, some toll, none, none⟩,
    ⟨⟨.point chest, .delta .both⟩, some toll, none, none⟩]

def pursesHolding (held : ℕ) : MemoryStore :=
  ((MemoryStore.new.setAmount purse 100).setAmount farPurse 100).setHold purse 9 (some held)

/-- A session that takes its whole reservation and puts it in the chest, completed. -/
def Tolls (g : Given) (s : Session) (receipt : Receipt) : Prop :=
  ∃ opened threaded, opensOver (pursesHolding 5) tolling = .ok opened ∧
    (opened.given g).run [.reserveTake 0 0, .cellPut 1 0 0] = .ok s ∧
    s.finish [] [] = .ok (receipt, threaded) ∧ receipt.outcome.isCompleted = true

theorem tolls_of_passes (g : Given) (told : Session → Receipt → Bool)
    (h : passes (opensOver (pursesHolding 5) tolling) (fun opened => passes
        ((opened.given g).run [.reserveTake 0 0, .cellPut 1 0 0]) fun s =>
          passes (s.finish [] []) fun ended =>
            ended.1.outcome.isCompleted && told s ended.1) = true) :
    ∃ s receipt, Tolls g s receipt ∧ told s receipt = true := by
  obtain ⟨opened, hopened, hrest⟩ := passes_iff.mp h
  obtain ⟨s, hs, hrest⟩ := passes_iff.mp hrest
  obtain ⟨⟨receipt, threaded⟩, hended, hrest⟩ := passes_iff.mp hrest
  obtain ⟨hcompleted, htold⟩ := Bool.and_eq_true_iff.mp hrest
  exact ⟨s, receipt, ⟨opened, threaded, hopened, hs, hended, hcompleted⟩, htold⟩

def leaves (receipt : Receipt) (fee : Option FeeBurn) (o : OverlayStore) (key : SubstateKey)
    (applied resolved : ℕ) : Bool :=
  passes (applyCompleted o receipt 9 .whole fee false) fun after =>
    after.2.isNone && decide (amountOf (after.1.cellValue key) = applied) &&
    match receipt.delta.project .whole with
    | none => false
    | some writes => passes (writes.resolve o.cellValue) fun settled =>
      decide (amountOf (settledCell o.cellValue settled.cells key) = resolved)

/-- A fee in what its vault does not hold leaves a receipt that does not project; a hold short
of the settlement, and a burn the session never made, leave other cells than the projection. -/
theorem projection_parts_ways :
    (∃ s receipt, Tolls ⟨.whole, [], some ⟨purse, scrip, 3⟩, false⟩ s receipt ∧
      (receipt.delta.project .whole).isNone = true) ∧
    (∃ s receipt, Tolls .plain s receipt ∧
      leaves receipt s.fee (.new (pursesHolding 2).toBaseline) purse 98 95 = true) ∧
    ∃ s receipt, Tolls ⟨fun owner => owner = tollgate, [], some ⟨farPurse, toll, 3⟩, false⟩ s
      receipt ∧
      leaves receipt s.fee (.new (pursesHolding 5).toBaseline) farPurse 97 100 = true := by
  refine ⟨?_, ?_, ?_⟩
  · exact tolls_of_passes _ (fun _ receipt => (receipt.delta.project .whole).isNone)
      (by decide +kernel)
  · exact tolls_of_passes _ (fun s receipt =>
      leaves receipt s.fee (.new (pursesHolding 2).toBaseline) purse 98 95) (by decide +kernel)
  · exact tolls_of_passes _ (fun s receipt =>
      leaves receipt s.fee (.new (pursesHolding 5).toBaseline) farPurse 97 100) (by decide +kernel)

/-- The toll with its fee in the same coin, applied where the session started. -/
theorem toll_projects : ∃ s receipt, Tolls ⟨.whole, [], some ⟨purse, toll, 3⟩, false⟩ s receipt ∧
      leaves receipt s.fee (.new (pursesHolding 5).toBaseline) purse 92 92 = true ∧
      ∃ writes, receipt.delta.project .whole = some writes ∧
        ∀ o', applyCompleted (.new (pursesHolding 5).toBaseline) receipt s.tx .whole s.fee false =
            .ok (o', none) →
          ∃ settled, writes.resolve (OverlayStore.new (pursesHolding 5).toBaseline).cellValue =
              .ok settled ∧ (∀ key, o'.cellValue key = (settled.cells[key]?).getD
              ((OverlayStore.new (pursesHolding 5).toBaseline).cellValue key)) ∧
            ∀ key, o'.entryValue key = (settled.entries[key]?).getD
              ((OverlayStore.new (pursesHolding 5).toBaseline).entryValue key) := by
  obtain ⟨s, receipt, htolls, htold⟩ := tolls_of_passes ⟨.whole, [], some ⟨purse, toll, 3⟩, false⟩
    (fun s receipt => leaves receipt s.fee (.new (pursesHolding 5).toBaseline) purse 92 92 &&
      decide (s.fee = some ⟨purse, toll, 3⟩ ∧ s.cellHolds purse = some toll ∧ s.tx = 9) &&
      s.applies tollgate &&
      receipt.delta.settles.toList.all fun p => decide (p.2.debit ≤ (heldReservation
        (OverlayStore.new (pursesHolding 5).toBaseline) p.1 9).getD 0)) (by decide +kernel)
  simp only [Bool.and_eq_true, decide_eq_true_eq, List.all_eq_true] at htold
  obtain ⟨⟨⟨hleaves, hfee, hholds, htx⟩, happlies⟩, hheld⟩ := htold
  obtain ⟨opened, threaded, hopened, hrun, hfinish, hcompleted⟩ := htolls
  obtain ⟨writes, hproject, hagrees⟩ := projection_agrees_with_application hfinish hcompleted
    (fun fee hburn resource hresource => by
      rw [hfee] at hburn
      obtain ⟨hsome, -⟩ := filter_eq_some_iff.mp hburn
      cases hsome
      exact some.inj (hresource.symm.trans hholds)) .whole
    (fun fee hburn => by
      rw [hfee] at hburn
      obtain ⟨hsome, -⟩ := filter_eq_some_iff.mp hburn
      cases hsome
      exact happlies)
  refine ⟨s, receipt, ⟨opened, threaded, hopened, hrun, hfinish, hcompleted⟩, hleaves, writes,
    hproject, fun o' happlied => ?_⟩
  refine hagrees _ o' false (fun key settled hsettled _ => ?_) happlied
  rw [htx]
  exact hheld (key, settled) (mem_toList.mpr hsettled)

end HyperscaleVm.Kernel

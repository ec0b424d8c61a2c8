import HyperscaleVm.Kernel.Session.Finishing
import HyperscaleVm.Kernel.Session.Frames

/-!
# The balance of a cell held exclusively (`session/value.rs`, `modes.rs`, `session/receipt.rs`)

A take and a put through an exclusive hold are judged against what the cell holds with its
queue folded in, and the queue is folded by its totals: every credit first, then every
debit.
-/

namespace HyperscaleVm.Kernel
open List Option Bool DeltaOp
open Effects (Declaration)
open Library
open AmountLedger (view)

variable {ops : List DeltaOp}

theorem foldDeltas_iff {committed n : ℕ}
    (hfloor : (ops.map debit).sum ≤ committed + (ops.map credit).sum) :
    foldDeltas committed ops = .ok n ↔ committed + (ops.map credit).sum < AMOUNT_BOUND ∧
      n = committed + (ops.map credit).sum - (ops.map debit).sum := by
  constructor
  · intro h
    obtain ⟨totals, htotals, h⟩ := bind_ok.mp h
    obtain ⟨credit, debit⟩ := totals
    obtain ⟨rfl, rfl⟩ := Prod.mk.inj (deltaTotals_ok.mp htotals).1
    dsimp only at h
    split at h
    · cases h
    rename_i credited hcredited
    obtain ⟨rfl, hlt⟩ := (checkedAdd_eq_some _).mp hcredited
    rw [if_pos hfloor] at h
    cases h
    exact ⟨hlt, rfl⟩
  · rintro ⟨hlt, rfl⟩
    have htotals : deltaTotals ops = .ok _ := deltaTotals_ok.mpr ⟨rfl, by omega, by omega⟩
    refine bind_ok.mpr ⟨_, htotals, ?_⟩
    dsimp only
    rw [(checkedAdd_eq_some _).mpr ⟨rfl, hlt⟩]
    exact if_pos hfloor

namespace Session

variable {s t u : Session} {site element : ℕ} {key : SubstateKey}

def queueOn (s : Session) (key : SubstateKey) : List DeltaOp := (s.store.pendingMap[key]?).getD []

def credits (s : Session) (key : SubstateKey) : ℕ := ((s.queueOn key).map DeltaOp.credit).sum

def debits (s : Session) (key : SubstateKey) : ℕ := ((s.queueOn key).map DeltaOp.debit).sum

theorem pendingMap_queueDelta (key' : SubstateKey) (op : DeltaOp) :
    (s.queueDelta key' op).store.pendingMap = pushDelta s.store.pendingMap key' [op] :=
  extendQueues_pushDelta _ _ _ _

theorem queueOn_queueDelta (key' : SubstateKey) (op : DeltaOp) :
    (s.queueDelta key' op).queueOn key =
      if key' = key then s.queueOn key ++ [op] else s.queueOn key := by
  unfold queueOn
  rw [pendingMap_queueDelta, pushDelta, getElem?_insert_eq]
  by_cases h : key' = key
  · subst h
    simp
  · rw [if_neg h, if_neg h]

theorem queueOn_congr (hsetting : t.setting = s.setting)
    (hqueue : t.store.active.pendingDeltas = s.store.active.pendingDeltas) :
    t.queueOn key = s.queueOn key := by
  have hcommitted : t.store.committed = s.store.committed := congrArg Setting.committed hsetting
  unfold queueOn OverlayStore.pendingMap
  rw [hqueue, hcommitted]

/-- A cell that started at `committed`, read as the body reads it, holds `balance` with what is
queued on it. -/
structure Stocked (s : Session) (key : SubstateKey) (committed balance : ℕ) : Prop where
  cell : committedAmount key ((s.store.cellValue key).getD []) = .ok committed
  balance : balance + s.debits key = committed + s.credits key

def CreditsFit (s : Session) (key : SubstateKey) (committed : ℕ) : Prop :=
  committed + s.credits key < AMOUNT_BOUND

variable {committed balance n : ℕ}

theorem Stocked.amount_iff (h : s.Stocked key committed balance) :
    amount s.store key = .ok n ↔ n = committed ∧ s.store.cellValue key ≠ some [] := by
  have hread := h.cell
  have hamount : amount s.store key = .ok n ↔ cellAmount (s.store.cellValue key) = .ok n :=
    mapError_ok
  rw [hamount]
  unfold committedAmount at hread
  cases hvalue : s.store.cellValue key with
  | none =>
    rw [hvalue] at hread
    cases hread
    constructor
    · intro hn
      cases hn
      exact ⟨rfl, nofun⟩
    · rintro ⟨rfl, -⟩
      rfl
  | some bytes =>
    rw [hvalue, getD_some] at hread
    change decodeAmount bytes = .ok n ↔ _
    cases bytes with
    | nil => exact ⟨nofun, fun hn => absurd rfl hn.2⟩
    | cons byte rest =>
      rw [isEmpty_cons, if_neg Bool.false_ne_true] at hread
      cases hdecoded : decodeAmount (byte :: rest) with
      | error error =>
        rw [hdecoded] at hread
        cases hread
      | ok decoded =>
        rw [hdecoded] at hread
        cases hread
        simp [eq_comm]

theorem Stocked.lt (h : s.Stocked key committed balance) : committed < AMOUNT_BOUND := by
  by_cases hempty : s.store.cellValue key = some []
  · have hread := h.cell
    rw [hempty] at hread
    cases hread
    norm_num [AMOUNT_BOUND]
  · exact amount_lt (h.amount_iff.mpr ⟨rfl, hempty⟩)

theorem Stocked.amountCell (h : s.Stocked key committed balance) :
    (∃ t, s.amountCell key = .ok (t, n)) ↔ s.CreditsFit key committed ∧ n = balance := by
  have hcommitted : committed < AMOUNT_BOUND := h.lt
  have hfloor : s.debits key ≤ committed + s.credits key := by
    have := h.balance
    omega
  have hfold : (withQueued (s.declaredCell key).1.store key committed).mapError SessionTrap.store =
      .ok n ↔ s.CreditsFit key committed ∧ n = balance := by
    rw [mapError_ok]
    change withQueued s.store key committed = .ok n ↔ _
    unfold withQueued CreditsFit
    have hbalance := h.balance
    cases hqueue : s.store.pendingMap[key]? with
    | none =>
      have hempty : s.queueOn key = [] := by
        unfold queueOn
        rw [hqueue, getD_none]
      rw [credits, debits, hempty, map_nil, map_nil, sum_nil] at hbalance
      rw [credits, hempty, map_nil, sum_nil]
      constructor
      · intro hn
        cases hn
        omega
      · rintro ⟨-, rfl⟩
        exact congrArg Except.ok (by omega)
    | some ops =>
      have hops : s.queueOn key = ops := by
        unfold queueOn
        rw [hqueue, getD_some]
      rw [credits, debits, hops] at hfloor hbalance
      rw [credits, hops]
      dsimp only
      rw [mapError_ok, foldDeltas_iff hfloor]
      refine and_congr_right fun _ => ?_
      omega
  unfold Session.amountCell
  constructor
  · rintro ⟨t, hcell⟩
    obtain ⟨c, hc, hcell⟩ := bind_ok.mp hcell
    obtain rfl : c = committed := Except.ok.inj (hc.symm.trans h.cell)
    obtain ⟨total, htotal, hcell⟩ := bind_ok.mp hcell
    cases hcell
    exact hfold.mp htotal
  · intro hn
    exact ⟨_, bind_ok.mpr ⟨_, h.cell, bind_ok.mpr ⟨n, hfold.mpr hn, rfl⟩⟩⟩

def HeldExclusively (w : Setting) (key : SubstateKey) : Prop :=
  ∀ (rep : ℕ) (held : Capability), w.table[rep]? = some held → held.key = some key →
    (∃ moves, held = .amount key moves) ∨ held = .amountRead key

variable {resource : ResourceAddr}

theorem Stocked.judged (P : ℕ → Prop) [DecidablePred P] {error : SessionTrap}
    (h : s.Stocked key committed balance) :
    (∃ judged, (s.amountCell key >>= fun read =>
        if P read.2 then .ok (read.1, key) else .error error) = .ok judged) ↔
      s.CreditsFit key committed ∧ P balance := by
  constructor
  · rintro ⟨judged, hjudge⟩
    obtain ⟨⟨v, standing⟩, hamount, hjudge⟩ := bind_ok.mp hjudge
    obtain ⟨hfits, rfl⟩ := h.amountCell.mp ⟨v, hamount⟩
    split at hjudge
    · rename_i hpasses
      exact ⟨hfits, hpasses⟩
    · cases hjudge
  · rintro ⟨hfits, hpasses⟩
    obtain ⟨v, hamount⟩ := h.amountCell.mpr ⟨hfits, rfl⟩
    exact ⟨_, bind_ok.mpr ⟨_, hamount, if_pos hpasses⟩⟩

theorem Stocked.cellTake {amount : ℕ} {moves : Moves} (h : s.Stocked key committed balance)
    (hacting : s.acting site element .take = .ok (.amount key moves))
    (hvalue : s.valueOf site element = .ok resource) :
    (∃ t rep, s.cellTake site element amount = .ok (t, rep)) ↔
      s.CreditsFit key committed ∧ amount ≤ balance := by
  constructor
  · rintro ⟨t, rep, htake⟩
    obtain ⟨held, hheld, htake⟩ := bind_ok.mp htake
    obtain rfl := Except.ok.inj (hacting.symm.trans hheld)
    obtain ⟨resource', -, settlement, hsettlement, htake⟩ := binds_ok.mp htake
    cases hsettlement
    obtain ⟨judged, hjudge, -⟩ := bind_ok.mp htake
    exact (h.judged (amount ≤ ·)).mp ⟨judged, hjudge⟩
  · intro hcovers
    obtain ⟨judged, hjudge⟩ := (h.judged (amount ≤ ·)).mpr hcovers
    exact ⟨_, _, bind_ok.mpr ⟨_, hacting, bind_ok.mpr ⟨_, hvalue, bind_ok.mpr ⟨_, rfl,
      bind_ok.mpr ⟨_, hjudge, rfl⟩⟩⟩⟩⟩

theorem Stocked.cellPut {funds : ℕ} {moves : Moves} (h : s.Stocked key committed balance)
    (hacting : s.acting site element .put = .ok (.amount key moves))
    (hcredit : s.judgeCredit site element funds = .ok ())
    (hfunds : s.buckets.amount funds = .ok n) :
    (∃ t, s.cellPut site element funds = .ok t) ↔
      s.CreditsFit key committed ∧ balance + n < AMOUNT_BOUND := by
  constructor
  · rintro ⟨t, hput⟩
    obtain ⟨held, hheld, hput⟩ := bind_ok.mp hput
    obtain rfl := Except.ok.inj (hacting.symm.trans hheld)
    obtain ⟨-, hput⟩ := seq_ok.mp hput
    obtain ⟨n', hn', settlement, hsettlement, hput⟩ := binds_ok.mp hput
    obtain rfl := Except.ok.inj (hfunds.symm.trans hn')
    cases hsettlement
    obtain ⟨judged, hjudge, -⟩ := bind_ok.mp hput
    exact (h.judged (· + n < AMOUNT_BOUND)).mp ⟨judged, hjudge⟩
  · intro hroom
    obtain ⟨⟨v, key'⟩, hjudge⟩ : ∃ judged, s.judgePut n (.immediate key) = .ok judged :=
      (h.judged (· + n < AMOUNT_BOUND)).mpr hroom
    obtain ⟨reads, rfl, -⟩ := judged_ok (.inr hjudge)
    obtain ⟨held, hheld, -⟩ := bind_ok.mp hfunds
    have htake : s.buckets.take funds = .ok _ := bind_ok.mpr ⟨held, hheld, rfl⟩
    exact ⟨_, bind_ok.mpr ⟨_, hacting, seq_ok.mpr ⟨hcredit, bind_ok.mpr ⟨_, hfunds,
      bind_ok.mpr ⟨_, rfl, bind_ok.mpr ⟨_, hjudge, bind_ok.mpr ⟨_, htake, rfl⟩⟩⟩⟩⟩⟩⟩

def settlesOn (s : Session) (site element : ℕ) (attempted : Op) (key : SubstateKey) : Bool :=
  match s.acting site element attempted with
  | .ok held => held.settlement = some (.immediate key)
  | .error _ => false

def balanceAfter (s : Session) (key : SubstateKey) (op : SessionOp) (balance : ℕ) : ℕ :=
  match op with
  | .cellTake site element amount =>
    if s.settlesOn site element .take key then balance - amount else balance
  | .cellPut site element funds =>
    if s.settlesOn site element .put key then
      balance + (s.buckets.amount funds).toOption.getD 0
    else balance
  | _ => balance

def runBalance (s : Session) (key : SubstateKey) (balance : ℕ) :
    List SessionOp → Except SessionTrap (Session × ℕ)
  | [] => .ok (s, balance)
  | op :: ops => do
    let (t, _) ← s.step op
    t.runBalance key (s.balanceAfter key op balance) ops

theorem cellValue_congr (hsetting : t.setting = s.setting)
    (hcell : t.store.active.cells[key]? = s.store.active.cells[key]?) :
    t.store.cellValue key = s.store.cellValue key := by
  have hbase : t.store.base = s.store.base := congrArg Setting.base hsetting
  have hcommitted : t.store.committed = s.store.committed := congrArg Setting.committed hsetting
  unfold OverlayStore.cellValue
  rw [hcell, hbase, hcommitted]

variable {op : SessionOp} {a : OpAnswer}

theorem step_cell (hheld : HeldExclusively s.setting key)
    (h : s.step op = .ok (t, a)) : t.store.active.cells[key]? = s.store.active.cells[key]? := by
  obtain ⟨deed, hallowed, -, hbooks, -⟩ := step_does h
  have hcells : t.store.active.cells = (deed.apply s.books).cells := congrArg Books.cells hbooks
  rw [hcells]
  cases deed with
  | setCell key' value =>
    obtain ⟨rep, r, htable, -, -⟩ := hallowed
    have hne : key' ≠ key := by
      rintro rfl
      obtain ⟨moves, heq⟩ | heq := hheld rep _ htable rfl <;> cases heq
    change (s.books.cells.insert key' value)[key]? = s.books.cells[key]?
    rw [getElem?_insert_eq, if_neg hne]
  | _ => rfl

theorem queueOn_step (key : SubstateKey) (h : s.step op = .ok (t, a))
    (hsettles : op.settles = false) : t.queueOn key = s.queueOn key := by
  have hsetting : t.setting = s.setting := (step_does h).choose_spec.2.2.2
  refine queueOn_congr hsetting ?_
  cases hlends : op.lends with
  | false => exact (step_leaves h hlends).within.queue hsettles
  | true =>
    cases SessionOp.lends_of hlends <;> cases h <;> rfl

theorem HeldExclusively.immediate {held : Capability} {attempted : Op}
    (h : HeldExclusively s.setting key) (hacting : s.acting site element attempted = .ok held)
    (hsettles : held.settlement = some (.immediate key) ∨ held.settlement = some (.queued key)) :
    held.settlement = some (.immediate key) := by
  obtain ⟨rep, -, htable, -, -⟩ := acting_ok hacting
  have hkey : held.key = some key := by
    rcases hsettles with hof | hof <;> cases held <;> first | (cases hof; rfl) | cases hof
  obtain ⟨moves, rfl⟩ | rfl := h rep held htable hkey
  · rfl
  · rcases hsettles with hof | hof <;> cases hof

theorem HeldExclusively.queueOn {held : Capability} {attempted : Op} {key' : SubstateKey}
    {delta : DeltaOp} (h : HeldExclusively s.setting key)
    (hacting : s.acting site element attempted = .ok held)
    (hsettles : held.settlement = some (.immediate key') ∨ held.settlement = some (.queued key')) :
    (s.queueDelta key' delta).queueOn key =
      if s.settlesOn site element attempted key then s.queueOn key ++ [delta]
        else s.queueOn key := by
  have hon : s.settlesOn site element attempted key = decide (key' = key) := by
    unfold settlesOn
    rw [hacting]
    dsimp only
    by_cases hkey : key' = key
    · subst hkey
      simp [h.immediate hacting hsettles]
    · rcases hsettles with hof | hof <;> simp [hof, hkey]
  simp [hon, queueOn_queueDelta]

theorem Stocked.step (h : s.Stocked key committed balance) (hheld : HeldExclusively s.setting key)
    (hstep : s.step op = .ok (t, a)) : t.Stocked key committed (s.balanceAfter key op balance) := by
  have hsetting : t.setting = s.setting := (step_does hstep).choose_spec.2.2.2
  have hcell := cellValue_congr hsetting (step_cell hheld hstep)
  have hbalance := h.balance
  refine ⟨hcell ▸ h.cell, ?_⟩
  cases hsettles : op.settles with
  | false =>
    have hqueue := queueOn_step key hstep hsettles
    have hsame : s.balanceAfter key op balance = balance := by
      cases op <;> first | rfl | cases hsettles
    rw [hsame, debits, credits, hqueue]
    exact hbalance
  | true =>
    cases op with
    | cellTake site element n =>
      obtain ⟨rep, htake⟩ := of_map_answer hstep
      obtain ⟨held, hacting, resource, hvalue, hrest⟩ := binds_ok.mp htake
      obtain ⟨settlement, hsettlement, ⟨v, key'⟩, hjudge, hrest⟩ := binds_ok.mp hrest
      obtain ⟨reads, rfl, hjudged⟩ := judged_ok (.inl hjudge)
      have hqueue : t.queueOn key = (s.queueDelta key' (.sub n)).queueOn key := by
        cases hrest
        rfl
      rw [hheld.queueOn hacting (hjudged.settles (settling_ok hsettlement))] at hqueue
      dsimp only [balanceAfter]
      rw [debits, credits, hqueue]
      split
      · rename_i hon
        have hcovers : n ≤ balance := by
          unfold settlesOn at hon
          rw [hacting] at hon
          cases held with
          | amount key'' moves =>
            cases of_decide_eq_true hon
            exact ((h.cellTake hacting hvalue).mp ⟨_, _, htake⟩).2
          | _ => cases hon
        simp only [map_append, map_cons, map_nil, sum_append, sum_cons, sum_nil, credit,
          debit]
        rw [debits, credits] at hbalance
        omega
      · exact hbalance
    | cellPut site element funds =>
      obtain ⟨held, hacting, hput⟩ := bind_ok.mp (of_map_done hstep)
      obtain ⟨-, hput⟩ := seq_ok.mp hput
      obtain ⟨n, hfunds, settlement, hsettlement, hput⟩ := binds_ok.mp hput
      obtain ⟨⟨v, key'⟩, hjudge, ⟨b, taken⟩, -, hput⟩ := binds_ok.mp hput
      obtain ⟨reads, rfl, hjudged⟩ := judged_ok (.inr hjudge)
      have hqueue : t.queueOn key = (s.queueDelta key' (.add n)).queueOn key := by
        cases hput
        rfl
      rw [hheld.queueOn hacting (hjudged.settles (settling_ok hsettlement))] at hqueue
      dsimp only [balanceAfter]
      rw [debits, credits, hqueue, hfunds]
      split
      · simp only [map_append, map_cons, map_nil, sum_append, sum_cons, sum_nil, credit,
          debit, Except.toOption, getD_some]
        rw [debits, credits] at hbalance
        omega
      · exact hbalance
    | _ => cases hsettles

theorem Stocked.run {balance' : ℕ} {ops : List SessionOp}
    (h : s.Stocked key committed balance) (hheld : HeldExclusively s.setting key)
    (hrun : s.runBalance key balance ops = .ok (t, balance')) :
    t.Stocked key committed balance' ∧ t.setting = s.setting := by
  induction ops generalizing s balance with
  | nil =>
    cases hrun
    exact ⟨h, rfl⟩
  | cons op ops ih =>
    obtain ⟨⟨u, a⟩, hstep, hrun⟩ := bind_ok.mp hrun
    have hsetting : u.setting = s.setting := (step_does hstep).choose_spec.2.2.2
    obtain ⟨hstocked, hset⟩ := ih (h.step hheld hstep) (hsetting ▸ hheld) hrun
    exact ⟨hstocked, hset.trans hsetting⟩

def Clears (s : Session) (key : SubstateKey) : Prop :=
  ∀ ops, s.store.pendingMap[key]? = some ops → ∃ movement, s.queuedMovement key ops = .ok movement ∧
    s.judgeQueued (key, movement) = .ok () ∧ (s.applies key.owner = true →
      ∃ applied, foldQueued (s.store.retainPendingDeltas fun key => s.applies key.owner) key ops =
        .ok applied)

structure Unpromised (s : Session) (key : SubstateKey) : Prop where
  holds : s.store.effectiveHolds key = ∅
  feeHolds : s.store.effectiveFeeHolds key = .none
  withheld : s.store.effectiveWithheldCredits key = ∅

theorem Unpromised.of_setting (h : s.Unpromised key) (hsetting : t.setting = s.setting) :
    t.Unpromised key := by
  have hbase : t.store.base = s.store.base := congrArg Setting.base hsetting
  have hcommitted : t.store.committed = s.store.committed := congrArg Setting.committed hsetting
  have hheld : t.store.active.held = s.store.active.held := congrArg Setting.held hsetting
  have hfee : t.store.active.feeHeld = s.store.active.feeHeld := congrArg Setting.feeHeld hsetting
  have hwithheld : t.store.active.withheld = s.store.active.withheld :=
    congrArg Setting.withheld hsetting
  refine ⟨?_, ?_, ?_⟩
  · rw [← h.holds]
    unfold OverlayStore.effectiveHolds
    rw [hbase, hcommitted, hheld]
  · rw [← h.feeHolds]
    unfold OverlayStore.effectiveFeeHolds
    rw [hbase, hcommitted, hfee]
  · rw [← h.withheld]
    unfold OverlayStore.effectiveWithheldCredits
    rw [hbase, hcommitted, hwithheld]

theorem Unpromised.judgeMovement (h : s.Unpromised key) (tx : TxHash) (credit debit : ℕ) :
    (∃ after, judgeMovement s.store key tx credit debit = .ok after) ↔
      ∃ n, amount s.store key = .ok n ∧ n + credit < AMOUNT_BOUND ∧ debit ≤ n + credit := by
  have hholds : (view s.store).holds key = ∅ := h.holds
  have hfee : (view s.store).feeHolds key = .none := h.feeHolds
  have hwithheld : (view s.store).withheldCredits key = ∅ := h.withheld
  have hfree : ∀ standing, unpromised s.store key standing
      (keptFrom ((view s.store).withheldCredits key) tx) = .ok standing := by
    intro standing
    have hheld : heldTotal s.store key = .ok 0 :=
      heldTotal_ok.mpr ⟨by rw [hholds]; rfl, by norm_num [AMOUNT_BOUND]⟩
    refine bind_ok.mpr ⟨0, hheld, ?_⟩
    rw [hfee, hwithheld]
    exact if_pos (Nat.zero_le standing)
  constructor
  · rintro ⟨after, hjudged⟩
    obtain ⟨standing, hstanding, free, hfree', hjudged⟩ := binds_ok.mp hjudged
    obtain ⟨n, hn, rfl, hlt⟩ := credited_ok hstanding
    obtain rfl := Except.ok.inj ((hfree _).symm.trans hfree')
    split at hjudged
    · cases hjudged
    · rename_i hcovers
      exact ⟨n, hn, hlt, Nat.not_lt.mp hcovers⟩
  · rintro ⟨n, hn, hlt, hcovers⟩
    have hcredited : credited s.store key credit = .ok (n + credit) := by
      refine bind_ok.mpr ⟨n, hn, ?_⟩
      rw [(checkedAdd_eq_some _).mpr ⟨rfl, hlt⟩]
    exact ⟨_, bind_ok.mpr ⟨_, hcredited, bind_ok.mpr ⟨_, hfree _, if_neg (Nat.not_lt.mpr hcovers)⟩⟩⟩

theorem queuedMovement_of_lt {ops : List DeltaOp}
    (hholds : s.cellHolds key = some resource) (hcredit : (ops.map credit).sum < AMOUNT_BOUND)
    (hdebit : (ops.map debit).sum < AMOUNT_BOUND) : s.queuedMovement key ops =
      .ok ⟨resource, (ops.map credit).sum, (ops.map debit).sum⟩ := by
  unfold queuedMovement totalMovement
  rw [hholds]
  exact mapError_ok.mpr (map_ok.mpr ⟨_, deltaTotals_ok.mpr ⟨rfl, hcredit, hdebit⟩, rfl⟩)

theorem Stocked.clears (h : s.Stocked key committed balance) (hfree : s.Unpromised key)
    (hholds : s.cellHolds key = some resource) (hfits : s.CreditsFit key committed)
    (hstored : s.store.cellValue key ≠ some []) : s.Clears key := by
  intro ops hops
  have hqueue : s.queueOn key = ops := by
    unfold queueOn
    rw [hops, getD_some]
  have hbalance := h.balance
  unfold CreditsFit at hfits
  rw [credits, debits, hqueue] at hbalance
  rw [credits, hqueue] at hfits
  have hamount : amount s.store key = .ok committed := h.amount_iff.mpr ⟨rfl, hstored⟩
  refine ⟨_, queuedMovement_of_lt hholds (by omega) (by omega), ?_, fun _ => ?_⟩
  · unfold judgeQueued
    split
    · rfl
    · obtain ⟨after, hjudged⟩ := (hfree.judgeMovement s.tx (ops.map credit).sum
        (ops.map debit).sum).mpr ⟨committed, hamount, hfits, by omega⟩
      exact mapError_ok.mpr (map_ok.mpr ⟨after, hjudged, rfl⟩)
  · have hfold : foldDeltas committed ops = .ok _ :=
      (foldDeltas_iff (by omega)).mpr ⟨hfits, rfl⟩
    exact ⟨_, bind_ok.mpr ⟨committed, hamount, bind_ok.mpr ⟨_, mapError_ok.mpr hfold, rfl⟩⟩⟩

def retained (s : Session) : OverlayStore :=
  s.store.retainPendingDeltas fun key => s.applies key.owner

theorem foldQueued_of_judged {ops : List DeltaOp} {m : Movement}
    (hmovement : s.queuedMovement key ops = .ok m) (hjudged : s.judgeQueued (key, m) = .ok ())
    (happlies : s.applies key.owner = true) :
    ∃ standing, amount s.store key = .ok standing ∧ standing + m.credit < AMOUNT_BOUND ∧
      m.debit ≤ standing + m.credit ∧
      foldQueued s.retained key ops = .ok ⟨key, standing, standing + m.credit - m.debit⟩ := by
  obtain ⟨resource, -, rfl⟩ := queuedMovement_ok hmovement
  unfold judgeQueued at hjudged
  rw [happlies, Bool.not_true, if_neg Bool.false_ne_true] at hjudged
  obtain ⟨after, hafter, -⟩ := map_ok.mp (mapError_ok.mp hjudged)
  obtain ⟨standing, hstanding, hlt, -, -, hfree⟩ := judgeMovement_ok hafter
  dsimp only at hlt hfree
  have hle : (ops.map DeltaOp.debit).sum ≤ standing + (ops.map DeltaOp.credit).sum := by omega
  have hfold : foldDeltas standing ops = .ok _ := (foldDeltas_iff hle).mpr ⟨hlt, rfl⟩
  have hamount : amount s.retained key = .ok standing := hstanding
  exact ⟨standing, hstanding, hlt, hle,
    bind_ok.mpr ⟨standing, hamount, bind_ok.mpr ⟨_, mapError_ok.mpr hfold, rfl⟩⟩⟩

theorem Stocked.fits_of_clears (h : s.Stocked key committed balance)
    (happlies : s.applies key.owner = true)
    (hqueued : s.store.pendingMap[key]? ≠ none) (hclears : s.Clears key) :
    s.CreditsFit key committed ∧ s.store.cellValue key ≠ some [] := by
  obtain ⟨ops, hops⟩ := ne_none_iff_exists'.mp hqueued
  obtain ⟨movement, hmovement, hjudged, -⟩ := hclears ops hops
  obtain ⟨n, hn, hlt, -⟩ := foldQueued_of_judged hmovement hjudged happlies
  obtain ⟨resource, -, rfl⟩ := queuedMovement_ok hmovement
  obtain ⟨rfl, hstored⟩ := h.amount_iff.mp hn
  refine ⟨?_, hstored⟩
  have hqueue : s.queueOn key = ops := by
    unfold queueOn
    rw [hops, getD_some]
  unfold CreditsFit
  rw [credits, hqueue]
  exact hlt

def WritesValue (declaration : Declaration) (key : SubstateKey) (resource : ResourceAddr) : Prop :=
  ∃ access ∈ declaration.ordered, access.effect.target = .point key ∧
    (∃ moves, access.effect.mode = .write moves) ∧ access.holds = some resource

theorem no_movement_beside_write {set : EffectSet} (h : set.selfConflicting = none)
    (hwrite : set.declares (.point key) .write) {kind : ModeKind}
    (hkind : set.declares (.point key) kind) : kind.conflictClass ≠ .movement := by
  intro hmovement
  obtain ⟨declared, hfound, mode, hmode, hwrites⟩ := hwrite
  obtain ⟨declared', hfound', mode', hmode', hmoves⟩ := hkind
  obtain rfl := some.inj (hfound.symm.trans hfound')
  unfold EffectSet.selfConflicting at h
  rw [findSome?_eq_none_iff] at h
  have hnone := h (.point key, declared) (mem_toList.mpr hfound)
  dsimp only at hnone
  have hclaims : (declared.modes.toList.any fun mode => mode.kind.conflictClass == .write) = true :=
    any_eq_true.mpr ⟨mode, Std.ExtTreeSet.mem_toList.mpr hmode, by rw [hwrites]; rfl⟩
  have hclaims' :
    (declared.modes.toList.any fun mode => mode.kind.conflictClass == .movement) = true :=
    any_eq_true.mpr ⟨mode', Std.ExtTreeSet.mem_toList.mpr hmode', by
      rw [hmoves, hmovement]
      rfl⟩
  cases (if_pos (and_eq_true_iff.mpr ⟨hclaims, hclaims'⟩)).symm.trans hnone

variable {store : OverlayStore} {declaration : Declaration} {tx : TxHash} {env : EnvInputs}
  {codec : Codec} {judges : OwnerSet}

section Opening

variable {s : Session} {resource : ResourceAddr}
  (hopen : materializeWithin store declaration tx env codec judges = .ok s)
include hopen

theorem heldExclusively_opened (hagree : ViewsAgree declaration)
    (hwrites : WritesValue declaration key resource) :
    HeldExclusively s.setting key := by
  have hopens := materializeWithin_ok hopen
  obtain ⟨access, haccess, htarget, ⟨moves, hmode⟩, hholds⟩ := hwrites
  have hwrite : declaration.set.declares (.point key) .write := by
    have hdeclares := hagree.declares haccess
    rwa [htarget, hmode] at hdeclares
  intro rep held htable hkey
  obtain ⟨access', hordered, -, hcap⟩ := hopens.tabled.access htable
  have haccess' := mem_of_getElem? hordered
  have hdeclares := hagree.declares haccess'
  -- every access of the cell is denominated, since one of them is
  have hvalue : access'.effect.target = .point key → access'.holds.isSome = true := by
    intro htarget'
    have hsame := hopens.tabled.agree access haccess access' haccess' (by rw [htarget, htarget'])
    rw [← hsame, hholds]
    rfl
  cases hcap with
  | read target mode bytes =>
    obtain rfl := some.inj hkey
    rw [hvalue target] at bytes
    cases bytes
  | amountRead target mode value =>
    obtain rfl := some.inj hkey
    exact .inr rfl
  | write target mode bytes =>
    obtain rfl := some.inj hkey
    rw [hvalue target] at bytes
    cases bytes
  | amount target mode value =>
    obtain rfl := some.inj hkey
    exact .inl ⟨_, rfl⟩
  | delta target mode value | reserve target mode value =>
    obtain rfl := some.inj hkey
    rw [target, mode] at hdeclares
    exact absurd rfl (no_movement_beside_write hopens.consistent hwrite hdeclares)
  | rangeRead | rangeWrite | instances => cases hkey

theorem cellHolds_opened (hwrites : WritesValue declaration key resource) (g : Given) :
    (s.given g).cellHolds key = some resource := by
  have hopens := materializeWithin_ok hopen
  obtain ⟨access, haccess, htarget, ⟨moves, hmode⟩, hholds⟩ := hwrites
  obtain ⟨rep, hordered⟩ := mem_iff_getElem?.mp haccess
  have hlength : rep < s.table.length := by
    have hlt := (List.getElem?_eq_some_iff.mp hordered).1
    have hsame : s.table.length = declaration.ordered.length := hopens.tabled.length
    omega
  obtain ⟨access', hordered', hresource, hcap⟩ :=
    hopens.tabled.access (getElem?_eq_getElem hlength)
  obtain rfl := some.inj (hordered.symm.trans hordered')
  have hkey : (s.table.get ⟨rep, hlength⟩).valueKey = some key := by
    change (s.table[rep]).valueKey = some key
    rw [hholds] at hcap
    generalize s.table[rep] = held at hcap
    cases hcap with
    | amount target mode value =>
      rw [htarget] at target
      cases target
      rfl
    | write target mode bytes | rangeWrite target mode bytes => cases bytes
    | instances target mode value =>
      rw [htarget] at target
      cases target
    | read target mode bytes => cases bytes
    | amountRead target mode value | delta target mode value | reserve target mode value
    | rangeRead target mode => cases hmode.symm.trans mode
  have hresource' : s.resourceAt rep = some resource := hresource.trans hholds
  exact (hopens.tabled.given g).cellHolds (s := s.given g) (getElem?_eq_getElem hlength) hkey
    hresource'

theorem unpromised_opened (hagree : ViewsAgree declaration)
    (hwrites : WritesValue declaration key resource)
    (hholds : store.effectiveHolds key = ∅) (hfee : store.effectiveFeeHolds key = .none)
    (hwithheld : store.effectiveWithheldCredits key = ∅) : s.Unpromised key := by
  have hopens := materializeWithin_ok hopen
  obtain ⟨access, haccess, htarget, ⟨moves, hmode⟩, -⟩ := hwrites
  have hwrite : declaration.set.declares (.point key) .write := by
    have hdeclares := hagree.declares haccess
    rwa [htarget, hmode] at hdeclares
  have hunreserved : ∀ n, (key, n) ∉ declaredReservations declaration.set := by
    intro n hmem
    unfold declaredReservations at hmem
    obtain ⟨effect, heffect, hsome⟩ := mem_filterMap.mp hmem
    split at hsome
    · rename_i key' amount htarget' hmode'
      cases hsome
      have hdeclares := EffectSet.declares_of_contains (EffectSet.mem_iter.mp heffect)
      rw [htarget', hmode'] at hdeclares
      exact absurd rfl (no_movement_beside_write hopens.consistent hwrite hdeclares)
    · cases hsome
  refine ⟨?_, ?_, ?_⟩
  · ext tx' n
    have hnone : store.heldReservation key tx' = none := by
      rw [← OverlayStore.heldReservation_view]
      change (store.effectiveHolds key)[tx']? = none
      rw [hholds, Std.ExtTreeMap.getElem?_empty]
    have hsame : s.store.heldReservation key tx' = none := by
      rcases hopens.unheld key tx' with hsame | ⟨-, -, -, n', hmem⟩
      · exact hsame.trans hnone
      · exact absurd hmem (hunreserved n')
    rw [← OverlayStore.heldReservation_view] at hsame
    change (s.store.effectiveHolds key)[tx']? = none at hsame
    rw [hsame, Std.ExtTreeMap.getElem?_empty]
  · rw [← hfee]
    unfold OverlayStore.effectiveFeeHolds
    rw [hopens.base, hopens.committed, hopens.active]
  · rw [← hwithheld]
    unfold OverlayStore.effectiveWithheldCredits
    rw [hopens.base, hopens.committed, hopens.active]

end Opening

/-- In every state of every run, a take and a put on the cell are judged on the balance its
takes and puts left, and finishing clears it, exactly where what the cell started with and all
that was put into it fit an amount together. -/
theorem exclusive_cell_is_its_balance {s₀ : Session} {key : SubstateKey}
    {resource : ResourceAddr} {committed balance₀ : ℕ}
    (hopen : materializeWithin store declaration tx env codec judges = .ok s₀)
    (hagree : ViewsAgree declaration) (hwrites : WritesValue declaration key resource)
    (hholds : store.effectiveHolds key = ∅) (hfee : store.effectiveFeeHolds key = .none)
    (hwithheld : store.effectiveWithheldCredits key = ∅) (g : Given)
    (hstocked : (s₀.given g).Stocked key committed balance₀) {ops : List SessionOp} {s : Session}
    {balance : ℕ} (hrun : (s₀.given g).runBalance key balance₀ ops = .ok (s, balance)) :
    (∀ site element amount moves resource, s.acting site element .take = .ok (.amount key moves) →
      s.valueOf site element = .ok resource →
      ((∃ t rep, s.cellTake site element amount = .ok (t, rep)) ↔
        s.CreditsFit key committed ∧ amount ≤ balance)) ∧
    (∀ site element funds n moves, s.acting site element .put = .ok (.amount key moves) →
      s.judgeCredit site element funds = .ok () → s.buckets.amount funds = .ok n →
      ((∃ t, s.cellPut site element funds = .ok t) ↔
        s.CreditsFit key committed ∧ balance + n < AMOUNT_BOUND)) ∧
    (s.CreditsFit key committed → s.store.cellValue key ≠ some [] → s.Clears key) ∧
    (s.applies key.owner = true → s.store.pendingMap[key]? ≠ none → s.Clears key →
      s.CreditsFit key committed ∧ s.store.cellValue key ≠ some []) := by
  have hheld : HeldExclusively (s₀.given g).setting key :=
    heldExclusively_opened (s := s₀) hopen hagree hwrites
  obtain ⟨hstocked, hsetting⟩ := hstocked.run hheld hrun
  have hopened : (s₀.given g).Unpromised key := by
    have hfree := unpromised_opened hopen hagree hwrites hholds hfee hwithheld
    exact ⟨hfree.holds, hfree.feeHolds, hfree.withheld⟩
  have hfree : s.Unpromised key := hopened.of_setting hsetting
  have hcell : s.cellHolds key = some resource := by
    have htable : s.table = (s₀.given g).table := congrArg Setting.table hsetting
    have hresources : s.cellResources = (s₀.given g).cellResources :=
      congrArg Setting.cellResources hsetting
    rw [← cellHolds_opened hopen hwrites g]
    unfold Session.cellHolds Session.resourceAt
    rw [htable, hresources]
  refine ⟨?_, ?_, ?_, ?_⟩
  · intro site element amount moves resource hacting hvalue
    exact hstocked.cellTake hacting hvalue
  · intro site element funds n moves hacting hcredit hfunds
    exact hstocked.cellPut hacting hcredit hfunds
  · exact hstocked.clears hfree hcell
  · exact hstocked.fits_of_clears

end Session

def fullVault : SubstateKey := ⟨⟨1, .component⟩, 0⟩

def fullResource : ResourceAddr := .numbered 7

def stocking (balance : ℕ) : MemoryStore :=
  MemoryStore.new.write fullVault (encodeAmount balance)

def fullDeclared : Declaration :=
  declaring [⟨⟨.point fullVault, .write .both⟩, some fullResource, none, none⟩]

/-- One unit taken out and put back leaves the balance; then it can neither be taken again nor
finished. -/
theorem full_cell_refuses_its_balance :
    ∃ s t receipt store, opensOver (stocking (AMOUNT_BOUND - 1)) fullDeclared = .ok s ∧
      (s.given .plain).runBalance fullVault (AMOUNT_BOUND - 1)
        [.cellTake 0 0 1, .cellPut 0 0 0] = .ok (t, AMOUNT_BOUND - 1) ∧
      (∀ u rep, t.cellTake 0 0 1 ≠ .ok (u, rep)) ∧
      t.finish [] [] = .ok (receipt, store) ∧ receipt.outcome = .infeasible fullVault 1 := by
  have hruns : passes (opensOver (stocking (AMOUNT_BOUND - 1)) fullDeclared)
      (fun s => passes ((s.given .plain).runBalance fullVault
          (AMOUNT_BOUND - 1) [.cellTake 0 0 1, .cellPut 0 0 0]) fun p =>
        decide (p.2 = AMOUNT_BOUND - 1) && !passes (p.1.cellTake 0 0 1) (fun _ => true) &&
          passes (p.1.finish [] []) fun q => q.1.outcome = .infeasible fullVault 1) = true := by
    decide +kernel
  obtain ⟨s, hopen, hrest⟩ := passes_iff.mp hruns
  obtain ⟨⟨t, balance⟩, hrun, hrest⟩ := passes_iff.mp hrest
  obtain ⟨hrest, hfinish⟩ := and_eq_true_iff.mp hrest
  obtain ⟨hbalance, hrefused⟩ := and_eq_true_iff.mp hrest
  obtain ⟨⟨receipt, store⟩, hfinish, houtcome⟩ := passes_iff.mp hfinish
  obtain rfl : balance = AMOUNT_BOUND - 1 := of_decide_eq_true hbalance
  refine ⟨s, t, receipt, store, hopen, hrun, fun u rep htake => ?_, hfinish,
    of_decide_eq_true houtcome⟩
  rw [passes_iff.mpr ⟨(u, rep), htake, rfl⟩] at hrefused
  cases hrefused

theorem stocked_vault_is_its_balance :
    ∃ s t u rep, opensOver (stocking 5) fullDeclared = .ok s ∧
      (s.given .plain).runBalance fullVault 5 [.cellTake 0 0 2] = .ok (t, 3) ∧
      t.cellTake 0 0 3 = .ok (u, rep) ∧ t.Clears fullVault := by
  have hruns : passes (opensOver (stocking 5) fullDeclared) (fun s =>
        decide (Session.committedAmount fullVault
          (((s.given .plain).store.cellValue fullVault).getD []) = .ok 5 ∧
          (s.given .plain).queueOn fullVault = []) &&
        passes ((s.given .plain).runBalance fullVault 5 [.cellTake 0 0 2])
          fun p => decide (p.2 = 3 ∧ p.1.queueOn fullVault = [.sub 2] ∧
            p.1.store.cellValue fullVault ≠ some [] ∧
            p.1.acting 0 0 .take = .ok (.amount fullVault .both) ∧
            p.1.valueOf 0 0 = .ok fullResource)) = true := by
    decide +kernel
  obtain ⟨s, hopen, hrest⟩ := passes_iff.mp hruns
  obtain ⟨hstart, hrest⟩ := and_eq_true_iff.mp hrest
  obtain ⟨hcell, hempty⟩ := of_decide_eq_true hstart
  obtain ⟨⟨t, balance⟩, hrun, hrest⟩ := passes_iff.mp hrest
  obtain ⟨hbalance, hqueue, hstored, hacting, hvalue⟩ := of_decide_eq_true hrest
  obtain rfl : balance = 3 := hbalance
  have hstocked : (s.given .plain).Stocked fullVault 5 5 := by
    refine ⟨hcell, ?_⟩
    rw [Session.debits, Session.credits, hempty]
    rfl
  obtain ⟨htakes, -, hclears, -⟩ := Session.exclusive_cell_is_its_balance hopen (by decide +kernel)
    ⟨_, mem_singleton_self _, rfl, ⟨.both, rfl⟩, rfl⟩ (by decide +kernel) (by decide +kernel)
    (by decide +kernel) _ hstocked hrun
  have hfits : t.CreditsFit fullVault 5 := by
    unfold Session.CreditsFit
    rw [Session.credits, hqueue]
    decide
  obtain ⟨u, rep, htake⟩ := (htakes 0 0 3 .both fullResource hacting hvalue).mpr ⟨hfits, le_rfl⟩
  exact ⟨s, t, u, rep, hopen, hrun, htake, hclears hfits hstored⟩

end HyperscaleVm.Kernel

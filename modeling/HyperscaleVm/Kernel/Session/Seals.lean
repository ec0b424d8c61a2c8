import HyperscaleVm.Kernel.Session.Opening

/-!
# Sealed draws over whole histories (`kernel/src/session/seal.rs`)
-/

namespace HyperscaleVm.Kernel
open List Option Library Session

def Session.bytesAt (s : Session) (key : SubstateKey) : Option Bytes := s.store.cellValue key

def sealIn (cell : Option Bytes) : Option ℕ :=
  cell.bind fun held => (Session.sealedEpoch 0 held).toOption

def drawOf (codec : Codec) (env : EnvInputs) (key : SubstateKey) (epoch : ℕ) : Drawn :=
  match Session.maturedSeed env epoch with
  | .ready seed =>
    .ready (codec.hash (Session.DOMAIN_SEALED_DRAW ++ seed ++ codec.keyBytes key))
  | unopened => unopened

def Session.Lapsed (s : Session) (key : SubstateKey) : Prop :=
  ∀ e, sealIn (s.bytesAt key) = some e → Session.maturedSeed s.env e = .expired

def Session.SealedNow (s : Session) (key : SubstateKey) : Prop :=
  s.bytesAt key = none ∨ s.bytesAt key = some (Session.sealBytes s.env.epoch)

section

variable {s t : Session} {site element : ℕ} {key : SubstateKey}

theorem sealedEpoch_toOption (site : ℕ) (held : Bytes) :
    (sealedEpoch site held).toOption = sealIn (some held) := by
  cases held with
  | nil => rfl
  | cons tag epoch =>
    simp only [sealIn, sealedEpoch, bind_some]
    split <;> rfl

theorem writeCellClear_bytesAt (hkey : s.actingKey site element .clear = .ok key)
    (h : s.writeCellClear site element = .ok t) : t.bytesAt key = none := by
  obtain ⟨key', hkey', h⟩ := bind_ok.mp h
  obtain rfl := Except.ok.inj (hkey.symm.trans hkey')
  cases h
  simp [bytesAt, OverlayStore.cellValue, OverlayStore.remove]

theorem expired_of_mayReseal {env : EnvInputs} {cell : Option Bytes}
    (h : mayReseal env site cell = .ok ()) {e : ℕ} (he : sealIn cell = some e) :
    maturedSeed env e = .expired := by
  cases cell with
  | none => cases he
  | some held =>
    obtain ⟨epoch, hepoch, h⟩ := bind_ok.mp h
    rw [← sealedEpoch_toOption site, hepoch] at he
    cases he
    by_contra hstands
    rw [if_neg hstands] at h
    cases h

theorem sealCell_bytesAt (hkey : s.actingKey site element .seal = .ok key)
    (h : s.sealCell site element = .ok t) :
    t.bytesAt key = some (sealBytes s.env.epoch) ∧ s.Lapsed key := by
  obtain ⟨key', hkey', h⟩ := bind_ok.mp h
  obtain rfl := Except.ok.inj (hkey.symm.trans hkey')
  obtain ⟨hmay, h⟩ := seq_ok.mp h
  cases h
  exact ⟨by simp [bytesAt, OverlayStore.cellValue, OverlayStore.write],
    fun e he => expired_of_mayReseal hmay he⟩

theorem openSeal_bytesAt {word : Drawn} (hkey : s.actingKey site element .openSeal = .ok key)
    (h : s.openSeal site element = .ok (t, word)) :
    ∃ e, sealIn (s.bytesAt key) = some e ∧ word = drawOf s.codec s.env key e := by
  obtain ⟨key', hkey', h⟩ := bind_ok.mp h
  obtain rfl := Except.ok.inj (hkey.symm.trans hkey')
  simp only [declaredCell, readCell] at h
  obtain ⟨e, he, h⟩ := bind_ok.mp h
  have hsealed : sealIn (s.bytesAt key) = some e := by
    change sealedEpoch site ((s.bytesAt key).getD []) = .ok e at he
    cases hcell : s.bytesAt key with
    | none => simp [hcell, sealedEpoch] at he
    | some held =>
      rw [hcell, getD_some] at he
      rw [← sealedEpoch_toOption site, he]
      rfl
  refine ⟨e, hsealed, ?_⟩
  unfold drawOf
  cases hmatured : maturedSeed s.env e with
  | _ =>
    rw [hmatured] at h
    cases h
    rfl

end

structure Act where
  before : Session
  op : SessionOp
  after : Session
  answer : OpAnswer
  answered : before.step op = .ok (after, answer)

namespace Act

variable (a : Act) (key : SubstateKey)

def actsOn (site element : ℕ) (op : Op) : Bool :=
  passes (a.before.actingKey site element op) fun acted => acted = key

def clears : Bool :=
  match a.op with
  | .writeCellClear site element => a.actsOn key site element .clear
  | _ => false

def seals : Bool :=
  match a.op with
  | .sealCell site element => a.actsOn key site element .seal
  | _ => false

def opens : Bool :=
  match a.op with
  | .openSeal site element => a.actsOn key site element .openSeal
  | _ => false

variable {a key}

theorem env_eq (a : Act) : a.after.env = a.before.env := by
  obtain ⟨deed, -, -, -, hsetting⟩ := step_does a.answered
  exact congrArg Setting.env hsetting

theorem actsOn_ok {site element : ℕ} {op : Op} (h : a.actsOn key site element op = true) :
    a.before.actingKey site element op = .ok key := by
  obtain ⟨acted, hacted, heq⟩ := passes_iff.mp h
  obtain rfl : acted = key := by simpa using heq
  exact hacted

theorem clears_ok (h : a.clears key = true) : a.after.bytesAt key = none := by
  have hanswered := a.answered
  unfold clears at h
  split at h
  · rename_i site element hop
    rw [hop] at hanswered
    exact writeCellClear_bytesAt (actsOn_ok h) (of_map_done hanswered)
  · cases h

theorem seals_ok (h : a.seals key = true) :
    a.after.bytesAt key = some (sealBytes a.before.env.epoch) ∧ a.before.Lapsed key := by
  have hanswered := a.answered
  unfold seals at h
  split at h
  · rename_i site element hop
    rw [hop] at hanswered
    exact sealCell_bytesAt (actsOn_ok h) (of_map_done hanswered)
  · cases h

theorem opens_ok (h : a.opens key = true) : ∃ e, sealIn (a.before.bytesAt key) = some e ∧
      a.answer = .drawn (drawOf a.before.codec a.before.env key e) := by
  have hanswered := a.answered
  unfold opens at h
  split at h
  · rename_i site element hop
    rw [hop] at hanswered
    obtain ⟨⟨t, word⟩, hopened, hword⟩ := map_ok.mp hanswered
    obtain ⟨e, he, rfl⟩ := openSeal_bytesAt (actsOn_ok h) hopened
    exact ⟨e, he, (congrArg Prod.snd hword).symm⟩
  · cases h

def Dedicated (a : Act) (key : SubstateKey) : Prop :=
  a.after.bytesAt key ≠ a.before.bytesAt key → a.clears key = true ∨ a.seals key = true

end Act

/-- The transactions committed one after another over one cell: the operations of each follow
one another in its session, each session finds the cell as the last left it, and only a
clear or a seal changes it. -/
structure SealHistory (key : SubstateKey) (codec : Codec) (txs : List (List Act)) : Prop where
  linked : ∀ tx ∈ txs, tx.IsChain fun a b => b.before = a.after
  threaded : txs.flatten.IsChain fun a b => b.before.bytesAt key = a.after.bytesAt key
  fresh : ∀ a ∈ txs.flatten.head?, a.before.bytesAt key = none
  hashes : ∀ a ∈ txs.flatten, a.before.codec = codec
  dedicated : ∀ a ∈ txs.flatten, a.Dedicated key

/-- A host whose epochs and folded epochs only rise, which gives an epoch one seed, brings no
expired epoch back and holds no seed a seal's maturity ahead of the epoch it runs. -/
structure HostSeeds (acts : List Act) : Prop where
  epochs : acts.Pairwise fun a b => a.before.env.epoch ≤ b.before.env.epoch
  newest : acts.Pairwise fun a b => ∀ n, a.before.env.newest = some n →
    ∃ n', b.before.env.newest = some n' ∧ n ≤ n'
  oneSeed : ∀ a ∈ acts, ∀ b ∈ acts, ∀ e seed seed', a.before.env.usable e = some seed →
    b.before.env.usable e = some seed' → seed = seed'
  gone : acts.Pairwise fun a b => ∀ e, a.before.env.seedAt e = .expired →
    b.before.env.seedAt e = .expired
  ahead : ∀ a ∈ acts, a.before.env.usable (a.before.env.epoch + Session.SEAL_MATURITY_EPOCHS) = none

/-- Further on, the cell opens onto a word before any window has the seal of `e` expired. -/
def ReadyIn (key : SubstateKey) (e : ℕ) (rest : List Act) (b : Act) (word : Bytes) : Prop :=
  ∃ mid post, rest = mid ++ b :: post ∧
    (∀ c ∈ mid, Session.maturedSeed c.before.env e ≠ .expired) ∧
    b.opens key = true ∧ b.answer = .drawn (.ready word)

def Roomy (cell : Option Bytes) : Prop :=
  ∀ e, sealIn cell = some e → e + Session.SEAL_MATURITY_EPOCHS < 2 ^ 64

variable {e : ℕ}

theorem sealIn_sealBytes (he : e < 2 ^ 64) : sealIn (some (sealBytes e)) = some e := by
  have hround : ofLeBytes (leBytes 8 e) = e := ofLeBytes_leBytes (by norm_num; omega)
  simp [sealIn, sealBytes, sealedEpoch, length_leBytes, hround, Except.toOption]

section

variable {key : SubstateKey} {a : Act}

theorem Act.roomy (hroom : a.before.env.epoch + Session.SEAL_MATURITY_EPOCHS < 2 ^ 64)
    (hdedicated : a.Dedicated key) (h : Roomy (a.before.bytesAt key)) :
    Roomy (a.after.bytesAt key) := by
  rcases or_iff_not_imp_left.mpr hdedicated with hsame | hclears | hseals
  · rw [hsame]
    exact h
  · rw [Act.clears_ok hclears]
    intro e he
    cases he
  · rw [(Act.seals_ok hseals).1]
    intro e he
    rw [sealIn_sealBytes (by omega)] at he
    cases he
    exact hroom

theorem roomy_of_chain {acts : List Act}
    (hchain : acts.IsChain fun a b => b.before.bytesAt key = a.after.bytesAt key)
    (hfresh : ∀ a ∈ acts.head?, Roomy (a.before.bytesAt key))
    (hroom : ∀ a ∈ acts, a.before.env.epoch + Session.SEAL_MATURITY_EPOCHS < 2 ^ 64)
    (hdedicated : ∀ a ∈ acts, a.Dedicated key) : ∀ a ∈ acts, Roomy (a.after.bytesAt key) := by
  induction acts with
  | nil => simp
  | cons a acts ih =>
    have hafter := Act.roomy (hroom a mem_cons_self) (hdedicated a mem_cons_self)
      (hfresh a rfl)
    rw [isChain_cons] at hchain
    have hrest := ih hchain.2 (fun b hb => by rw [hchain.1 b hb]; exact hafter)
      (fun b hb => hroom b (mem_cons_of_mem _ hb))
      (fun b hb => hdedicated b (mem_cons_of_mem _ hb))
    intro b hb
    rcases mem_cons.mp hb with rfl | hb
    · exact hafter
    · exact hrest b hb

variable {e : ℕ}

theorem Act.sealed (hdedicated : a.Dedicated key)
    (hclear : a.clears key = true → a.before.Lapsed key)
    (hlive : maturedSeed a.before.env e ≠ .expired)
    (hstands : sealIn (a.before.bytesAt key) = some e) : sealIn (a.after.bytesAt key) = some e := by
  rcases or_iff_not_imp_left.mpr hdedicated with hsame | hclears | hseals
  · rw [hsame]
    exact hstands
  · exact absurd (hclear hclears e hstands) hlive
  · exact absurd ((Act.seals_ok hseals).2 e hstands) hlive

theorem Act.sealedNow (hdedicated : a.Dedicated key) (h : a.before.SealedNow key) :
    a.after.SealedNow key := by
  unfold Session.SealedNow
  rw [a.env_eq]
  rcases or_iff_not_imp_left.mpr hdedicated with hsame | hclears | hseals
  · rw [hsame]
    exact h
  · exact .inl (Act.clears_ok hclears)
  · exact .inr (Act.seals_ok hseals).1

theorem carried_along {R : Act → Act → Prop} (P : Session → Prop) {b : Act} {mid post : List Act}
    (hfinds : ∀ a b, R a b → P a.after → P b.before)
    (hchain : (a :: (mid ++ b :: post)).IsChain R) (hkeeps : ∀ c ∈ mid, P c.before → P c.after)
    (h : P a.after) : P b.before := by
  induction mid generalizing a with
  | nil => exact hfinds a b ((isChain_cons.mp hchain).1 b rfl) h
  | cons c mid ih =>
    obtain ⟨hnext, hchain⟩ := isChain_cons.mp hchain
    have hbefore := hfinds a c (hnext c rfl) h
    exact ih hchain (fun d hd => hkeeps d (mem_cons_of_mem _ hd)) (hkeeps c mem_cons_self hbefore)

end

variable {key : SubstateKey}

theorem ready_of_drawOf {codec : Codec} {env : EnvInputs} {word : Bytes}
    (hroom : e + Session.SEAL_MATURITY_EPOCHS < 2 ^ 64) (h : drawOf codec env key e = .ready word) :
    ∃ seed, env.usable (e + Session.SEAL_MATURITY_EPOCHS) = some seed ∧
      word = codec.hash (Session.DOMAIN_SEALED_DRAW ++ seed ++ codec.keyBytes key) := by
  have hepoch : min (e + Session.SEAL_MATURITY_EPOCHS) (2 ^ 64 - 1) =
      e + Session.SEAL_MATURITY_EPOCHS := by omega
  unfold drawOf maturedSeed at h
  rw [hepoch] at h
  unfold EnvInputs.seedAt at h
  cases hseed : env.usable (e + Session.SEAL_MATURITY_EPOCHS) with
  | some seed =>
    rw [hseed] at h
    cases h
    exact ⟨seed, rfl, rfl⟩
  | none =>
    rw [hseed] at h
    dsimp only at h
    split at h
    · rename_i heq
      split at heq
      · split at heq <;> cases heq
      · cases heq
    · rename_i hnot
      exact absurd h (hnot word)

/-- Where no seal is cleared before it has expired and no epoch is within a maturity of the
last, a sealed draw is fixed: every word its cell opens onto until a window has the seal
expired is the one drawn from the seed of the sealing epoch's maturity and the cell's key, and
the transaction that seals the cell opens it onto none. -/
theorem sealed_draw_is_fixed {key : SubstateKey} {codec : Codec} {txs : List (List Act)}
    (hist : SealHistory key codec txs) (host : HostSeeds txs.flatten)
    (hclear : ∀ a ∈ txs.flatten, a.clears key = true → a.before.Lapsed key)
    (hroom : ∀ a ∈ txs.flatten, a.before.env.epoch + Session.SEAL_MATURITY_EPOCHS < 2 ^ 64) :
    (∀ pre a rest e, txs.flatten = pre ++ a :: rest → sealIn (a.after.bytesAt key) = some e →
      (∀ b word, ReadyIn key e rest b word →
        ∃ seed, b.before.env.usable (e + Session.SEAL_MATURITY_EPOCHS) = some seed ∧
          word = codec.hash (Session.DOMAIN_SEALED_DRAW ++ seed ++ codec.keyBytes key)) ∧
      ∀ b word b' word', ReadyIn key e rest b word → ReadyIn key e rest b' word' → word = word') ∧
    ∀ tx ∈ txs, ∀ pre a mid b post, tx = pre ++ a :: (mid ++ b :: post) → a.seals key = true →
      b.opens key = true → ∀ word, b.answer ≠ .drawn (.ready word) := by
  have hderived : ∀ pre a rest e, txs.flatten = pre ++ a :: rest →
      sealIn (a.after.bytesAt key) = some e → ∀ b word, ReadyIn key e rest b word →
        b ∈ txs.flatten ∧ ∃ seed, b.before.env.usable (e + Session.SEAL_MATURITY_EPOCHS) =
          some seed ∧
          word = codec.hash (Session.DOMAIN_SEALED_DRAW ++ seed ++ codec.keyBytes key) := by
    rintro pre a _ e hacts hstands b word ⟨mid, post, rfl, hlive, hopens, hanswer⟩
    have hmid : ∀ c ∈ mid, c ∈ txs.flatten := fun c hc => by rw [hacts]; simp [hc]
    have ha : a ∈ txs.flatten := by rw [hacts]; simp
    have hb : b ∈ txs.flatten := by rw [hacts]; simp
    have hchain := hist.threaded
    rw [hacts] at hchain
    have hsealed := carried_along (fun s => sealIn (s.bytesAt key) = some e)
      (fun a b hsame h => by rw [hsame]; exact h) (isChain_append.mp hchain).2.1
      (fun c hc => Act.sealed (hist.dedicated c (hmid c hc)) (hclear c (hmid c hc)) (hlive c hc))
      hstands
    have hroomy := roomy_of_chain hist.threaded
      (fun c hc => by rw [hist.fresh c hc]; intro e he; cases he) hroom hist.dedicated a ha
    obtain ⟨e', he', hword⟩ := Act.opens_ok hopens
    obtain rfl := some.inj (hsealed.symm.trans he')
    rw [hanswer, hist.hashes b hb] at hword
    exact ⟨hb, ready_of_drawOf (hroomy _ hstands) (OpAnswer.drawn.inj hword).symm⟩
  refine ⟨fun pre a rest e hacts hstands => ⟨fun b word hready =>
    (hderived pre a rest e hacts hstands b word hready).2, ?_⟩, ?_⟩
  · intro b word b' word' hready hready'
    obtain ⟨hb, seed, hseed, rfl⟩ := hderived pre a rest e hacts hstands b word hready
    obtain ⟨hb', seed', hseed', rfl⟩ := hderived pre a rest e hacts hstands b' word' hready'
    rw [host.oneSeed b hb b' hb' _ _ _ hseed hseed']
  · rintro tx htx pre a mid b post rfl hseals hopens word hanswer
    have hin : ∀ c ∈ pre ++ a :: (mid ++ b :: post), c ∈ txs.flatten := fun c hc =>
      mem_flatten.mpr ⟨_, htx, hc⟩
    have hb : b ∈ txs.flatten := hin b (by simp)
    have hlinked := (isChain_append.mp (hist.linked _ htx)).2.1
    have hstart : a.after.bytesAt key = some (Session.sealBytes a.after.env.epoch) := by
      rw [a.env_eq]
      exact (Act.seals_ok hseals).1
    have hwithin := carried_along (Session.SealedNow · key) (fun a b hsame h => by rwa [hsame])
      hlinked (fun c hc => Act.sealedNow (hist.dedicated c (hin c (by simp [hc])))) (.inr hstart)
    obtain ⟨e, he, hword⟩ := Act.opens_ok hopens
    rcases hwithin with hnone | hsealed
    · rw [hnone] at he
      cases he
    have hroomed := hroom b hb
    rw [hsealed, sealIn_sealBytes (by omega)] at he
    cases he
    rw [hanswer] at hword
    obtain ⟨seed, hseed, -⟩ := ready_of_drawOf hroomed (OpAnswer.drawn.inj hword).symm
    rw [host.ahead b hb] at hseed
    cases hseed

def actsOf (s : Session) : List SessionOp → List Act
  | [] => []
  | op :: ops =>
    match h : s.step op with
    | .ok (t, answer) => ⟨s, op, t, answer, h⟩ :: actsOf t ops
    | .error _ => []

theorem actsOf_linked (s : Session) (ops : List SessionOp) :
    (actsOf s ops).IsChain (fun a b => b.before = a.after) ∧
      ∀ a ∈ (actsOf s ops).head?, a.before = s := by
  induction ops generalizing s with
  | nil => simp [actsOf]
  | cons op ops ih =>
    unfold actsOf
    split
    · rename_i t answer h
      exact ⟨isChain_cons.mpr ⟨(ih t).2, (ih t).1⟩, by simp⟩
    · simp

theorem actsOf_setting (s : Session) (ops : List SessionOp) :
    ∀ a ∈ actsOf s ops, a.before.setting = s.setting := by
  induction ops generalizing s with
  | nil => simp [actsOf]
  | cons op ops ih =>
    unfold actsOf
    split
    · rename_i t answer h
      intro a ha
      rcases mem_cons.mp ha with rfl | ha
      · rfl
      · obtain ⟨deed, -, -, -, hsetting⟩ := step_does h
        exact (ih t a ha).trans hsetting
    · simp

def hostEnv (n : ℕ) : EnvInputs :=
  ⟨0, n, fun e => if e ≤ n then some [UInt8.ofNat e] else none, some n⟩

def lotKey : SubstateKey := ⟨⟨1, .component⟩, 0⟩

def lotSession (n : ℕ) (cell : Option Bytes) : Session :=
  .opened (.new { MemoryStore.new with
      cells := (match cell with
        | some held => (∅ : Std.ExtTreeMap SubstateKey Bytes).insert lotKey held
        | none => ∅) }.toBaseline)
    (declaring [⟨⟨.point lotKey, .write .both⟩, none, none, none⟩]) [.write lotKey] 9 (hostEnv n)
    plainCodec .whole

def lotHistory (plan : List (ℕ × Option Bytes × List SessionOp)) : List (List Act) :=
  plan.map fun p => actsOf (lotSession p.1 p.2.1) p.2.2

variable {plan : List (ℕ × Option Bytes × List SessionOp)}

theorem lotHistory_setting (ha : a ∈ (lotHistory plan).flatten) :
    a.before.codec = plainCodec ∧ ∃ n, a.before.env = hostEnv n := by
  obtain ⟨tx, htx, ha⟩ := mem_flatten.mp ha
  obtain ⟨p, -, rfl⟩ := List.mem_map.mp htx
  have hsetting := actsOf_setting _ _ a ha
  have hcodec : a.before.codec = plainCodec := congrArg Setting.codec hsetting
  have henv : a.before.env = hostEnv p.1 := congrArg Setting.env hsetting
  exact ⟨hcodec, p.1, henv⟩

theorem hostEnv_host {acts : List Act} (henv : ∀ a ∈ acts, ∃ n, a.before.env = hostEnv n)
    (hepochs : acts.Pairwise fun a b => a.before.env.epoch ≤ b.before.env.epoch) :
    HostSeeds acts where
  epochs := hepochs
  newest := by
    refine hepochs.imp_of_mem fun {a b} ha hb hle n hn => ?_
    obtain ⟨i, hi⟩ := henv a ha
    obtain ⟨j, hj⟩ := henv b hb
    rw [hi] at hn hle
    rw [hj] at hle ⊢
    cases hn
    exact ⟨j, rfl, hle⟩
  oneSeed a ha b hb e seed seed' hseed hseed' := by
    obtain ⟨i, hi⟩ := henv a ha
    obtain ⟨j, hj⟩ := henv b hb
    rw [hi] at hseed
    rw [hj] at hseed'
    simp only [hostEnv, ite_none_right_eq_some, some.injEq] at hseed hseed'
    rw [← hseed.2, ← hseed'.2]
  gone := by
    refine hepochs.imp_of_mem fun {a b} ha _ _ e hgone => ?_
    obtain ⟨i, hi⟩ := henv a ha
    rw [hi] at hgone
    unfold EnvInputs.seedAt at hgone
    by_cases he : e ≤ i <;> simp [hostEnv, he] at hgone
  ahead a ha := by
    obtain ⟨i, hi⟩ := henv a ha
    rw [hi]
    simp [hostEnv, Session.SEAL_MATURITY_EPOCHS]

def lotFollows (acts : List Act) : Bool :=
  decide (acts.IsChain fun a b => b.before.bytesAt lotKey = a.after.bytesAt lotKey) &&
    (acts.head?.all fun a => a.before.bytesAt lotKey = none) &&
    (acts.all fun a => decide (a.after.bytesAt lotKey = a.before.bytesAt lotKey) ||
      a.clears lotKey || a.seals lotKey) &&
    decide (acts.Pairwise fun a b => a.before.env.epoch ≤ b.before.env.epoch) &&
    acts.all fun a => a.before.env.epoch + Session.SEAL_MATURITY_EPOCHS < 2 ^ 64

theorem lotHistory_ok (h : lotFollows (lotHistory plan).flatten = true) :
    SealHistory lotKey plainCodec (lotHistory plan) ∧ HostSeeds (lotHistory plan).flatten ∧
      ∀ a ∈ (lotHistory plan).flatten,
        a.before.env.epoch + Session.SEAL_MATURITY_EPOCHS < 2 ^ 64 := by
  simp only [lotFollows, Bool.and_eq_true, decide_eq_true_eq, List.all_eq_true,
    Bool.or_eq_true] at h
  obtain ⟨⟨⟨⟨hthreaded, hfresh⟩, hdedicated⟩, hepochs⟩, hroom⟩ := h
  refine ⟨⟨fun tx htx => ?_, hthreaded, fun a ha => ?_, fun a ha => (lotHistory_setting ha).1,
    fun a ha hchanged => ?_⟩, hostEnv_host (fun a ha => (lotHistory_setting ha).2) hepochs, hroom⟩
  · obtain ⟨p, -, rfl⟩ := List.mem_map.mp htx
    exact (actsOf_linked _ _).1
  · rw [Option.mem_def.mp ha] at hfresh
    simpa using hfresh
  · rcases hdedicated a ha with (hsame | hclears) | hseals
    · exact absurd hsame hchanged
    · exact .inl hclears
    · exact .inr hseals

def lotWord (n : ℕ) : Bytes :=
  Session.DOMAIN_SEALED_DRAW ++ [UInt8.ofNat n] ++ plainCodec.keyBytes lotKey

def drawnTwice : List (ℕ × Option Bytes × List SessionOp) :=
  [(0, none, [.sealCell 0 0]),
    (2, some (Session.sealBytes 0), [.openSeal 0 0, .writeCellClear 0 0, .sealCell 0 0]),
    (4, some (Session.sealBytes 2), [.openSeal 0 0])]

def drawTwice : List Act → Bool
  | [a, b, c, d, b'] => a.seals lotKey && decide (sealIn (a.after.bytesAt lotKey) = some 0) &&
    b.opens lotKey && decide (b.answer = .drawn (.ready (lotWord 2))) &&
    b'.opens lotKey && decide (b'.answer = .drawn (.ready (lotWord 4))) &&
    [b, c, d].all fun act => decide (Session.maturedSeed act.before.env 0 ≠ .expired)
  | _ => false

/-- The second draw answers another word while the first seal's seed is there to be read. -/
theorem cleared_seal_draws_again :
    ∃ txs, SealHistory lotKey plainCodec txs ∧ HostSeeds txs.flatten ∧
      (∀ a ∈ txs.flatten, a.before.env.epoch + Session.SEAL_MATURITY_EPOCHS < 2 ^ 64) ∧
      ∃ a rest b word b' word', txs.flatten = a :: rest ∧ a.seals lotKey = true ∧
        sealIn (a.after.bytesAt lotKey) = some 0 ∧ ReadyIn lotKey 0 rest b word ∧
        ReadyIn lotKey 0 rest b' word' ∧ word ≠ word' := by
  have hfollows : lotFollows (lotHistory drawnTwice).flatten = true := by decide +kernel
  obtain ⟨hist, host, hroom⟩ := lotHistory_ok hfollows
  refine ⟨_, hist, host, hroom, ?_⟩
  have hacts : drawTwice (lotHistory drawnTwice).flatten = true := by decide +kernel
  unfold drawTwice at hacts
  split at hacts
  · rename_i a b c d b' heq
    simp only [Bool.and_eq_true, decide_eq_true_eq, List.all_eq_true] at hacts
    obtain ⟨⟨⟨⟨⟨⟨hseals, hsealed⟩, hopens⟩, hword⟩, hopens'⟩, hword'⟩, hlive⟩ := hacts
    exact ⟨a, _, b, _, b', _, heq, hseals, hsealed,
      ⟨[], [c, d, b'], rfl, by simp, hopens, hword⟩, ⟨[b, c, d], [], rfl, hlive, hopens', hword'⟩,
      by decide +kernel⟩
  · cases hacts

def drawnLater : List (ℕ × Option Bytes × List SessionOp) :=
  [(0, none, [.sealCell 0 0]), (2, some (Session.sealBytes 0), [.openSeal 0 0]),
    (4, some (Session.sealBytes 0), [.openSeal 0 0])]

def drawLater : List Act → Bool
  | [a, b, b'] => decide (sealIn (a.after.bytesAt lotKey) = some 0) &&
    b.opens lotKey && decide (b.answer = .drawn (.ready (lotWord 2))) &&
    b'.opens lotKey && decide (b'.answer = .drawn (.ready (lotWord 2))) &&
    decide (Session.maturedSeed b.before.env 0 ≠ .expired) &&
    decide (b.before.env.epoch ≠ b'.before.env.epoch)
  | _ => false

theorem uncleared_seal_draws_once :
    ∃ txs, SealHistory lotKey plainCodec txs ∧ HostSeeds txs.flatten ∧
      ∃ a rest b word b' word', txs.flatten = a :: rest ∧
        sealIn (a.after.bytesAt lotKey) = some 0 ∧ ReadyIn lotKey 0 rest b word ∧
        ReadyIn lotKey 0 rest b' word' ∧ b.before.env.epoch ≠ b'.before.env.epoch ∧
        word = word' := by
  have hfollows : lotFollows (lotHistory drawnLater).flatten = true := by decide +kernel
  obtain ⟨hist, host, hroom⟩ := lotHistory_ok hfollows
  refine ⟨_, hist, host, ?_⟩
  have hclears : ((lotHistory drawnLater).flatten.all fun a => !a.clears lotKey) = true := by
    decide +kernel
  have hacts : drawLater (lotHistory drawnLater).flatten = true := by decide +kernel
  unfold drawLater at hacts
  split at hacts
  · rename_i a b b' heq
    simp only [Bool.and_eq_true, decide_eq_true_eq] at hacts
    obtain ⟨⟨⟨⟨⟨⟨hsealed, hopens⟩, hword⟩, hopens'⟩, hword'⟩, hlive⟩, hepochs⟩ := hacts
    have hready : ReadyIn lotKey 0 [b, b'] b (lotWord 2) :=
      ⟨[], [b'], rfl, by simp, hopens, hword⟩
    have hready' : ReadyIn lotKey 0 [b, b'] b' (lotWord 2) :=
      ⟨[b], [], rfl, by simpa using hlive, hopens', hword'⟩
    have hclear : ∀ c ∈ (lotHistory drawnLater).flatten, c.clears lotKey = true →
        c.before.Lapsed lotKey := fun c hc hcleared =>
      absurd hcleared (by simpa using List.all_eq_true.mp hclears c hc)
    have hfixed := (sealed_draw_is_fixed hist host hclear hroom).1 [] a _ 0 heq hsealed
    exact ⟨a, _, b, _, b', _, heq, hsealed, hready, hready', hepochs,
      hfixed.2 b _ b' _ hready hready'⟩
  · cases hacts

end HyperscaleVm.Kernel

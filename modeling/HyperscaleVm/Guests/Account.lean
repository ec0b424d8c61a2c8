import HyperscaleVm.Effects.Rule
import HyperscaleVm.Types.Price

/-!
# The account package (`guests/account/src/lib.rs`, `effects/src/auth.rs`)
-/

namespace HyperscaleVm.Guests
open Effects (Claim RuleBytes StoredRule)
open Library List Option

deriving instance DecidableEq for Effects.RuleBytes

def admittedBy (rule : StoredRule) (keys : List Claim) : Bool :=
  match rule.claimsOnly with
  | some claims => claims.satisfiedBy keys
  | none => false

def ruleAdmits (rule : RuleBytes) (keys : List Claim) : Bool :=
  match rule.decode with
  | some rule => admittedBy rule keys
  | none => false

/-- Bytes admission decoded to a rule over principals alone. -/
structure PrincipalRule where
  intoBytes : RuleBytes
  principals : (match intoBytes.decode.bind StoredRule.claimsOnly with
    | some claims => claims.leaves.all fun claim =>
      claim.instance_.isNone && claim.subject.cls = .principal
    | none => false) = true
  deriving DecidableEq

structure Authority where
  primary : RuleBytes
  confirmation : RuleBytes
  deriving DecidableEq

/-- An unwritten cell is governed by the key its address derives. -/
def authCellAdmits (owner : Address) (cell : Option Authority) (keys : List Claim) : Bool :=
  match cell with
  | none => admittedBy (.claim (.ofSubject owner)) keys
  | some authority => ruleAdmits authority.primary keys && ruleAdmits authority.confirmation keys

def nobody : RuleBytes := .encoded .never

theorem nobody_admits_none (keys : List Claim) : ruleAdmits nobody keys = false := by
  rfl

inductive Replacement where
  | factors (primary confirmation : PrincipalRule) (frozen : Option RuleBytes)
  | roles (recovery veto : RuleBytes) (delayMs : ℕ)
  deriving DecidableEq

structure Proposal where
  serial : ℕ
  effectiveAtMs : ℕ
  replaces : Replacement
  deriving DecidableEq

structure Account where
  auth : Option Authority
  recovery : Option RuleBytes
  veto : Option RuleBytes
  proposal : Option Proposal
  delayMs : ℕ
  serials : ℕ
  deriving DecidableEq

def Account.new : Account := ⟨none, none, none, none, 0, 0⟩

inductive ValueMethod where
  | withdraw
  | deposit
  | burn
  | burnNf
  | depositNf
  | withdrawNf
  | presentBadge
  | presentInstance

def ValueMethod.requiresSelf : ValueMethod → Bool
  | .withdraw | .withdrawNf | .presentBadge | .presentInstance => true
  | .deposit | .burn | .burnNf | .depositNf => false

inductive Method where
  | value (method : ValueMethod)
  | securify (primary confirmation : PrincipalRule) (recovery veto : RuleBytes) (delayMs : ℕ)
  | rotate (primary confirmation : PrincipalRule)
  | amend (recovery veto : RuleBytes) (delayMs : ℕ)
  | propose (primary confirmation : PrincipalRule)
  | freeze (primary confirmation : PrincipalRule)
  | promote (serial : ℕ)
  | cancel (serial : ℕ)
  | veto (serial : ℕ)

structure Party where
  keys : List Claim
  evidence : List Claim

structure Call where
  party : Party
  clockMs : ℕ
  method : Method

inductive Refusal where
  | conditionUnmet
  | authAbsent
  | authPresent
  | noSuchProposal
  | unmatured
  | outranked
  deriving DecidableEq

namespace Account

variable (self : Address)

/-- `#[requires(self)]`: a sign-in over the governing cell, presented as the holder. -/
def signedIn (a : Account) (party : Party) : Bool :=
  authCellAdmits self a.auth party.keys && party.evidence.contains (.ofSubject self)

def storedAdmits (cell : Option RuleBytes) (party : Party) : Bool :=
  match cell with
  | some rule => ruleAdmits rule party.evidence
  | none => false

/-- `#[requires(governs(cell))]`: the rule stored there, or the holder while none is. -/
def governs (a : Account) (cell : Option RuleBytes) (party : Party) : Bool :=
  storedAdmits cell party || cell.isNone && a.signedIn self party

def existing (a : Account) : Except Refusal Authority :=
  match a.auth with
  | some authority => .ok authority
  | none => .error .authAbsent

def rewrite (a : Account) (authority : Authority) : Except Refusal Account := do
  let _ ← a.existing
  .ok { a with auth := some authority }

def securify (a : Account) (primary confirmation : PrincipalRule) (recovery veto : RuleBytes)
    (delayMs : ℕ) : Except Refusal Account :=
  match a.auth with
  | some _ => .error .authPresent
  | none => .ok { a with
      auth := some ⟨primary.intoBytes, confirmation.intoBytes⟩
      recovery := some recovery
      veto := some veto
      delayMs := delayMs }

def rotate (a : Account) (primary confirmation : PrincipalRule) : Except Refusal Account :=
  a.rewrite ⟨primary.intoBytes, confirmation.intoBytes⟩

def filed (a : Account) (clockMs : ℕ) (replaces : Replacement) : Account :=
  let serial := saturated (a.serials + 1)
  { a with
    serials := serial
    proposal := some ⟨serial, saturated (clockMs + a.delayMs), replaces⟩ }

def file (a : Account) (clockMs : ℕ) (replaces : Replacement) : Except Refusal Account := do
  let _ ← a.existing
  .ok (a.filed clockMs replaces)

def displaced (a : Account) : Option RuleBytes :=
  match a.proposal with
  | some ⟨_, _, .factors _ _ frozen⟩ => frozen
  | some ⟨_, _, .roles _ _ _⟩ | none => none

def waitsOnFactors (a : Account) : Bool :=
  match a.proposal with
  | some ⟨_, _, .factors _ _ _⟩ => true
  | some ⟨_, _, .roles _ _ _⟩ | none => false

def amend (a : Account) (clockMs : ℕ) (recovery veto : RuleBytes) (delayMs : ℕ) :
    Except Refusal Account :=
  if a.waitsOnFactors then .error .outranked
  else a.file clockMs (.roles recovery veto delayMs)

def propose (a : Account) (clockMs : ℕ) (primary confirmation : PrincipalRule) :
    Except Refusal Account :=
  a.file clockMs (.factors primary confirmation a.displaced)

def freeze (a : Account) (clockMs : ℕ) (primary confirmation : PrincipalRule) :
    Except Refusal Account := do
  let authority ← a.existing
  let displaced := a.displaced.getD authority.primary
  let a ← a.file clockMs (.factors primary confirmation (some displaced))
  a.rewrite { authority with primary := nobody }

def named (a : Account) (serial : ℕ) : Except Refusal Proposal :=
  match a.proposal.filter fun waiting => waiting.serial = serial with
  | some proposal => .ok proposal
  | none => .error .noSuchProposal

/-- What `promote` writes: the factors, or the three role cells. -/
def enact (a : Account) : Replacement → Except Refusal Account
  | .factors primary confirmation _ => a.rewrite ⟨primary.intoBytes, confirmation.intoBytes⟩
  | .roles recovery veto delayMs => .ok { a with
      recovery := some recovery
      veto := some veto
      delayMs := delayMs }

def promote (a : Account) (clockMs serial : ℕ) : Except Refusal Account := do
  let proposal ← a.named serial
  if clockMs < proposal.effectiveAtMs then .error .unmatured
  else do
    let a ← a.enact proposal.replaces
    .ok { a with proposal := none }

def giveBack (a : Account) : Replacement → Except Refusal Account
  | .factors _ _ (some primary) => do
    let authority ← a.existing
    a.rewrite { authority with primary := primary }
  | .factors _ _ none | .roles _ _ _ => .ok a

def retract (a : Account) (serial : ℕ) : Except Refusal Account := do
  let proposal ← a.named serial
  let a ← a.giveBack proposal.replaces
  .ok { a with proposal := none }

def step (a : Account) (call : Call) : Except Refusal Account :=
  match call.method with
  | .value method => do
    require (!method.requiresSelf || a.signedIn self call.party) .conditionUnmet
    .ok a
  | .securify primary confirmation recovery veto delayMs => do
    require (a.signedIn self call.party) .conditionUnmet
    a.securify primary confirmation recovery veto delayMs
  | .rotate primary confirmation => do
    require (a.signedIn self call.party) .conditionUnmet
    a.rotate primary confirmation
  | .amend recovery veto delayMs => do
    require (a.signedIn self call.party) .conditionUnmet
    a.amend call.clockMs recovery veto delayMs
  | .propose primary confirmation => do
    require (a.governs self a.recovery call.party) .conditionUnmet
    a.propose call.clockMs primary confirmation
  | .freeze primary confirmation => do
    require (a.governs self a.recovery call.party) .conditionUnmet
    a.freeze call.clockMs primary confirmation
  | .promote serial => a.promote call.clockMs serial
  | .cancel serial => do
    require (a.governs self a.recovery call.party) .conditionUnmet
    a.retract serial
  | .veto serial => do
    require (a.governs self a.veto call.party) .conditionUnmet
    a.retract serial

def run (a : Account) (calls : List Call) : Except Refusal Account := calls.foldlM (step self) a

def retracted (a : Account) : Account :=
  { a with
    auth := match a.displaced with
      | some primary => a.auth.map fun authority => { authority with primary := primary }
      | none => a.auth
    proposal := none }

inductive Does (a : Account) (party : Party) (clockMs : ℕ) : Method → Account → Prop where
  | value (method : ValueMethod) : Does a party clockMs (.value method) a
  | securify (primary confirmation : PrincipalRule) (recovery veto : RuleBytes) (delayMs : ℕ)
      (hgate : a.signedIn self party = true) (hauth : a.auth = none) :
      Does a party clockMs (.securify primary confirmation recovery veto delayMs) { a with
        auth := some ⟨primary.intoBytes, confirmation.intoBytes⟩
        recovery := some recovery
        veto := some veto
        delayMs := delayMs }
  | rotate (primary confirmation : PrincipalRule) (authority : Authority)
      (hgate : a.signedIn self party = true) (hauth : a.auth = some authority) :
      Does a party clockMs (.rotate primary confirmation)
        { a with auth := some ⟨primary.intoBytes, confirmation.intoBytes⟩ }
  | amend (recovery veto : RuleBytes) (delayMs : ℕ) (authority : Authority)
      (hgate : a.signedIn self party = true) (hauth : a.auth = some authority)
      (hwaits : a.waitsOnFactors = false) :
      Does a party clockMs (.amend recovery veto delayMs)
        (a.filed clockMs (.roles recovery veto delayMs))
  | propose (primary confirmation : PrincipalRule) (authority : Authority)
      (hgate : a.governs self a.recovery party = true) (hauth : a.auth = some authority) :
      Does a party clockMs (.propose primary confirmation)
        (a.filed clockMs (.factors primary confirmation a.displaced))
  | freeze (primary confirmation : PrincipalRule) (authority : Authority)
      (hgate : a.governs self a.recovery party = true) (hauth : a.auth = some authority) :
      Does a party clockMs (.freeze primary confirmation)
        { a.filed clockMs (.factors primary confirmation
            (some (a.displaced.getD authority.primary))) with
          auth := some ⟨nobody, authority.confirmation⟩ }
  | enactFactors (serial effectiveAtMs : ℕ) (primary confirmation : PrincipalRule)
      (frozen : Option RuleBytes) (authority : Authority)
      (hwaits : a.proposal = some ⟨serial, effectiveAtMs, .factors primary confirmation frozen⟩)
      (hclock : effectiveAtMs ≤ clockMs) (hauth : a.auth = some authority) :
      Does a party clockMs (.promote serial) { a with
        auth := some ⟨primary.intoBytes, confirmation.intoBytes⟩
        proposal := none }
  | enactRoles (serial effectiveAtMs : ℕ) (recovery veto : RuleBytes) (delayMs : ℕ)
      (hwaits : a.proposal = some ⟨serial, effectiveAtMs, .roles recovery veto delayMs⟩)
      (hclock : effectiveAtMs ≤ clockMs) :
      Does a party clockMs (.promote serial) { a with
        recovery := some recovery
        veto := some veto
        delayMs := delayMs
        proposal := none }
  | cancel (proposal : Proposal) (hgate : a.governs self a.recovery party = true)
      (hwaits : a.proposal = some proposal) (hauth : a.displaced.isSome → a.auth.isSome) :
      Does a party clockMs (.cancel proposal.serial) a.retracted
  | veto (proposal : Proposal) (hgate : a.governs self a.veto party = true)
      (hwaits : a.proposal = some proposal) (hauth : a.displaced.isSome → a.auth.isSome) :
      Does a party clockMs (.veto proposal.serial) a.retracted

variable {self} {a a' : Account} {authority : Authority}

theorem existing_ok : a.existing = .ok authority ↔ a.auth = some authority := by
  unfold existing
  split
  · rename_i stored hstored
    simp [hstored]
  · rename_i hstored
    simp [hstored]

variable {clockMs : ℕ}

theorem file_ok {replaces : Replacement} : a.file clockMs replaces = .ok a' ↔
      (∃ authority, a.auth = some authority) ∧ a' = a.filed clockMs replaces := by
  unfold file
  rw [bind_ok]
  constructor
  · rintro ⟨authority, hauth, h⟩
    exact ⟨⟨authority, existing_ok.mp hauth⟩, (Except.ok.inj h).symm⟩
  · rintro ⟨⟨authority, hauth⟩, rfl⟩
    exact ⟨authority, existing_ok.mpr hauth, rfl⟩

theorem rewrite_ok : a.rewrite authority = .ok a' ↔
      (∃ stored, a.auth = some stored) ∧ a' = { a with auth := some authority } := by
  unfold rewrite
  rw [bind_ok]
  constructor
  · rintro ⟨stored, hauth, h⟩
    exact ⟨⟨stored, existing_ok.mp hauth⟩, (Except.ok.inj h).symm⟩
  · rintro ⟨⟨stored, hauth⟩, rfl⟩
    exact ⟨stored, existing_ok.mpr hauth, rfl⟩

variable {serial : ℕ}

theorem named_ok {proposal : Proposal} :
    a.named serial = .ok proposal ↔ a.proposal = some proposal ∧ proposal.serial = serial := by
  unfold named
  split
  · rename_i waiting hwaiting
    rw [filter_eq_some_iff, decide_eq_true_eq] at hwaiting
    obtain ⟨hproposal, hserial⟩ := hwaiting
    rw [Except.ok.injEq, hproposal, some.injEq]
    exact ⟨fun h => ⟨h, h ▸ hserial⟩, fun h => h.1⟩
  · rename_i hnone
    constructor
    · intro h
      cases h
    · rintro ⟨hproposal, hserial⟩
      rw [hproposal, filter_some, if_pos (by simpa using hserial)] at hnone
      cases hnone

theorem retract_ok : a.retract serial = .ok a' ↔ (∃ proposal, a.proposal = some proposal ∧
      proposal.serial = serial) ∧ (a.displaced.isSome → a.auth.isSome) ∧ a' = a.retracted := by
  unfold retract
  rw [bind_ok]
  constructor
  · rintro ⟨⟨own, effective, replaces⟩, hnamed, h⟩
    obtain ⟨hproposal, hserial⟩ := named_ok.mp hnamed
    refine ⟨⟨_, hproposal, hserial⟩, ?_⟩
    obtain ⟨u, hu, h⟩ := bind_ok.mp h
    cases h
    cases replaces with
    | roles recovery veto delayMs =>
      cases hu
      simp [retracted, displaced, hproposal]
    | factors primary confirmation frozen =>
      cases frozen with
      | none =>
        cases hu
        simp [retracted, displaced, hproposal]
      | some given =>
        obtain ⟨authority, hauth, hu⟩ := bind_ok.mp hu
        have hauth := existing_ok.mp hauth
        obtain ⟨-, rfl⟩ := rewrite_ok.mp hu
        simp [retracted, displaced, hproposal, hauth]
  · rintro ⟨⟨⟨own, effective, replaces⟩, hproposal, hserial⟩, hauth, rfl⟩
    refine ⟨_, named_ok.mpr ⟨hproposal, hserial⟩, ?_⟩
    cases replaces with
    | roles recovery veto delayMs =>
      simp [giveBack, retracted, displaced, hproposal, bind, Except.bind]
    | factors primary confirmation frozen =>
      cases frozen with
      | none => simp [giveBack, retracted, displaced, hproposal, bind, Except.bind]
      | some given =>
        obtain ⟨authority, hauth⟩ := isSome_iff_exists.mp
          (hauth (by simp [displaced, hproposal]))
        simp [giveBack, retracted, displaced, hproposal, hauth, existing, rewrite, bind,
          Except.bind]

theorem promote_ok : a.promote clockMs serial = .ok a' ↔ ∃ proposal, a.proposal = some proposal ∧
      proposal.serial = serial ∧ proposal.effectiveAtMs ≤ clockMs ∧ match proposal.replaces with
      | .factors primary confirmation _ => (∃ authority, a.auth = some authority) ∧ a' = { a with
          auth := some ⟨primary.intoBytes, confirmation.intoBytes⟩
          proposal := none }
      | .roles recovery veto delayMs => a' = { a with
          recovery := some recovery
          veto := some veto
          delayMs := delayMs
          proposal := none } := by
  unfold promote
  rw [bind_ok]
  refine exists_congr fun proposal => ?_
  rw [named_ok, and_assoc, and_congr_right_iff]
  intro hproposal
  rw [and_congr_right_iff]
  intro hserial
  by_cases hclock : clockMs < proposal.effectiveAtMs
  · rw [if_pos hclock]
    constructor
    · intro h
      cases h
    · rintro ⟨hlate, -⟩
      omega
  · rw [if_neg hclock, bind_ok]
    have hlate : proposal.effectiveAtMs ≤ clockMs := by omega
    cases proposal.replaces with
    | factors primary confirmation frozen =>
      constructor
      · rintro ⟨u, hu, h⟩
        obtain ⟨hauth, rfl⟩ := rewrite_ok.mp hu
        exact ⟨hlate, hauth, (Except.ok.inj h).symm⟩
      · rintro ⟨-, hauth, rfl⟩
        exact ⟨_, rewrite_ok.mpr ⟨hauth, rfl⟩, rfl⟩
    | roles recovery veto delayMs =>
      constructor
      · rintro ⟨u, hu, h⟩
        cases hu
        exact ⟨hlate, (Except.ok.inj h).symm⟩
      · rintro ⟨-, rfl⟩
        exact ⟨_, rfl, rfl⟩

variable {call : Call}

theorem step_does (h : a.step self call = .ok a') :
    Does self a call.party call.clockMs call.method a' := by
  obtain ⟨party, clockMs, method⟩ := call
  cases method with
  | value method =>
    obtain ⟨-, h⟩ := seq_ok.mp h
    cases h
    exact .value method
  | securify primary confirmation recovery veto delayMs =>
    obtain ⟨hgate, h⟩ := seq_ok.mp h
    simp only [securify] at h
    split at h
    · cases h
    · rename_i hauth
      cases h
      exact .securify _ _ _ _ _ (require_ok.mp hgate) hauth
  | rotate primary confirmation =>
    obtain ⟨hgate, h⟩ := seq_ok.mp h
    obtain ⟨⟨authority, hauth⟩, rfl⟩ := rewrite_ok.mp h
    exact .rotate _ _ authority (require_ok.mp hgate) hauth
  | amend recovery veto delayMs =>
    obtain ⟨hgate, h⟩ := seq_ok.mp h
    simp only [amend] at h
    split at h
    · cases h
    · rename_i hwaits
      obtain ⟨⟨authority, hauth⟩, rfl⟩ := file_ok.mp h
      exact .amend _ _ _ authority (require_ok.mp hgate) hauth (by simpa using hwaits)
  | propose primary confirmation =>
    obtain ⟨hgate, h⟩ := seq_ok.mp h
    obtain ⟨⟨authority, hauth⟩, rfl⟩ := file_ok.mp h
    exact .propose _ _ authority (require_ok.mp hgate) hauth
  | freeze primary confirmation =>
    obtain ⟨hgate, h⟩ := seq_ok.mp h
    obtain ⟨authority, hauth, u, hu, h⟩ := binds_ok.mp h
    obtain ⟨-, rfl⟩ := file_ok.mp hu
    obtain ⟨-, rfl⟩ := rewrite_ok.mp h
    exact .freeze _ _ authority (require_ok.mp hgate) (existing_ok.mp hauth)
  | promote serial =>
    obtain ⟨⟨own, effective, replaces⟩, hproposal, rfl, hclock, h⟩ := promote_ok.mp h
    cases replaces with
    | factors primary confirmation frozen =>
      obtain ⟨⟨authority, hauth⟩, rfl⟩ := h
      exact .enactFactors _ effective _ _ frozen authority hproposal hclock hauth
    | roles recovery veto delayMs =>
      cases h
      exact .enactRoles _ effective _ _ _ hproposal hclock
  | cancel serial =>
    obtain ⟨hgate, h⟩ := seq_ok.mp h
    obtain ⟨⟨proposal, hproposal, rfl⟩, hauth, rfl⟩ := retract_ok.mp h
    exact .cancel proposal (require_ok.mp hgate) hproposal hauth
  | veto serial =>
    obtain ⟨hgate, h⟩ := seq_ok.mp h
    obtain ⟨⟨proposal, hproposal, rfl⟩, hauth, rfl⟩ := retract_ok.mp h
    exact .veto proposal (require_ok.mp hgate) hproposal hauth

theorem run_nil : a.run self [] = .ok a := rfl

variable {final : Account}

theorem run_append {earlier later : List Call} : a.run self (earlier ++ later) = .ok final ↔
      ∃ mid, a.run self earlier = .ok mid ∧ mid.run self later = .ok final := by
  unfold run
  rw [foldlM_append, bind_ok]

theorem run_cons {calls : List Call} : a.run self (call :: calls) = .ok final ↔
      ∃ mid, a.step self call = .ok mid ∧ mid.run self calls = .ok final := by
  unfold run
  rw [foldlM_cons, bind_ok]

theorem run_single : a.run self [call] = a.step self call := by
  unfold run
  rw [foldlM_cons]
  cases a.step self call <;> rfl

variable {history : List Call}

theorem run_keeps (Holds : List Call → Account → Prop) (hnew : Holds [] .new)
    (hstep : ∀ history a call a', Account.new.run self history = .ok a → Holds history a →
      Does self a call.party call.clockMs call.method a' → Holds (history ++ [call]) a')
      (h : Account.new.run self history = .ok final) : Holds history final := by
  induction history using List.reverseRecOn generalizing final with
  | nil =>
    cases h
    exact hnew
  | append_singleton history call ih =>
    obtain ⟨mid, hmid, hlast⟩ := run_append.mp h
    rw [run_single] at hlast
    exact hstep history mid call final hmid (ih hmid) (step_does hlast)

/-- An account with something waiting, or with a role stored, has its governing record, and
both roles. -/
structure Standing (a : Account) : Prop where
  securified : a.proposal.isSome → a.auth.isSome
  roles : a.auth.isSome → a.recovery.isSome ∧ a.veto.isSome

theorem Standing.does {party : Party} {method : Method} (hstanding : Standing a)
    (hdoes : Does self a party clockMs method a') : Standing a' := by
  obtain ⟨hsecurified, hroles⟩ := hstanding
  cases hdoes with
  | value method => exact ⟨hsecurified, hroles⟩
  | securify primary confirmation recovery veto delayMs hgate hauth =>
    exact ⟨fun _ => rfl, fun _ => ⟨rfl, rfl⟩⟩
  | rotate primary confirmation authority hgate hauth =>
    exact ⟨fun _ => rfl, fun _ => hroles (by rw [hauth]; rfl)⟩
  | amend recovery veto delayMs authority hgate hauth hwaits
  | propose primary confirmation authority hgate hauth =>
    exact ⟨fun _ => by simp [filed, hauth], hroles⟩
  | freeze primary confirmation authority hgate hauth =>
    exact ⟨fun _ => rfl, fun _ => hroles (by rw [hauth]; rfl)⟩
  | enactFactors serial effective primary confirmation frozen authority hwaits hclock hauth =>
    exact ⟨fun h => (by cases h), fun _ => hroles (by rw [hauth]; rfl)⟩
  | enactRoles serial effective recovery veto delayMs hwaits hclock =>
    exact ⟨fun h => (by cases h), fun _ => ⟨rfl, rfl⟩⟩
  | cancel proposal hgate hwaits hauth | veto proposal hgate hwaits hauth =>
    exact ⟨fun h => (by cases h), fun _ => hroles (hsecurified (by rw [hwaits]; rfl))⟩

theorem run_standing (h : Account.new.run self history = .ok a) : Standing a :=
  run_keeps (fun _ a => Standing a) ⟨fun h => (by cases h), fun h => (by cases h)⟩
    (fun _ _ _ _ _ hstanding hdoes => hstanding.does hdoes) h

end Account

end HyperscaleVm.Guests

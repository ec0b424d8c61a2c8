import HyperscaleVm.Kernel.Session.Intervals

/-!
# Materialization (`session/materialize.rs`)
-/

namespace HyperscaleVm.Kernel
open Effects

inductive MaterializeError where
  | unsupported (effect : Effect)
  | conditionUnmet (target : EffectTarget) (required : Presence) (node : Option ℕ)
  | notSignedIn (account : Address)
  | conditionUnanswerable (node : Option ℕ)
  | infeasible (key : SubstateKey) (amount : ℕ)
  | selfConflicting (key : SubstateKey)
  | undenominatedMovement (key : SubstateKey)
  | mixedContents (target : EffectTarget)
  | heldMismatch (key : SubstateKey)
  | conditionStraddlesScope (node : Option ℕ)
  | store (error : StoreError)
  deriving DecidableEq

inductive Contents where
  | leaf (key : SubstateKey)
  | entries (owner : Address) (collection : ℕ)
  deriving DecidableEq

def contentsOf : EffectTarget → Contents
  | .point key => .leaf key
  | .entry owner collection _ | .range owner collection _ _ _ => .entries owner collection

def intervalOf (target : EffectTarget) (width : ℕ) : Option Interval :=
  match target with
  | .point _ => none
  | .entry owner collection order => some ⟨width, owner, collection, order, order, 1⟩
  | .range owner collection lo hi cap => some ⟨width, owner, collection, lo, hi, cap⟩

def pointCapability (key : SubstateKey) (denominated : Bool) :
    Mode → Except MaterializeError Capability
  | .read => .ok (if denominated then .amountRead key else .read key)
  | .write moves => .ok (if denominated then .amount key moves else .write key)
  | .delta moves => if denominated then
      .ok (.delta key moves) else .error (.undenominatedMovement key)
  | .reserve amount =>
    if denominated then .ok (.reserve key amount) else .error (.undenominatedMovement key)

def capabilityFor (effect : Effect) (denominated : Bool) (width : ℕ) :
    Except MaterializeError Capability :=
  match effect.target, effect.mode with
  | .point key, mode => pointCapability key denominated mode
  | target, .read =>
    match intervalOf target width with
    | some interval => .ok (.rangeRead interval)
    | none => .error (.unsupported effect)
  | target, .write moves =>
    match intervalOf target width with
    | some interval => .ok (if denominated then .instances interval moves else .rangeWrite interval)
    | none => .error (.unsupported effect)
  | _, _ => .error (.unsupported effect)

def buildTable (set : EffectSet) : List (Contents × Option ResourceAddr) → List DeclaredAccess →
    Except MaterializeError (List Capability)
  | _, [] => .ok []
  | contents, access :: rest => do
    let target := access.effect.target
    if (contents.lookup (contentsOf target)).any (· ≠ access.holds) then
      .error (.mixedContents target)
    else
      let held ← capabilityFor access.effect access.holds.isSome (set.widthOf target)
      let table ← buildTable set ((contentsOf target, access.holds) :: contents) rest
      return held :: table

def standingAmount : Option Bytes → Except StoreError ℕ
  | some bytes => if bytes.isEmpty then .ok 0 else (decodeAmount bytes).mapError .mode
  | none => .ok 0

def occupied (o : OverlayStore) : EffectTarget → Except StoreError (OverlayStore × Bool)
  | .point key =>
    let (read, cell) := o.read key
    if o.pendingMap.contains key then do
      let committed ← standingAmount cell
      let total ← withQueued read key committed
      return (read, 0 < total)
    else .ok (read, cell.isSome)
  | .entry owner collection order =>
    let (o, found) := o.entriesInRange owner collection order order 1
    .ok (o, !found.isEmpty)
  | .range owner collection lo hi cap =>
    if cap = 0 then .ok (o, false)
    else
      let (o, found) := o.entriesInRange owner collection lo hi 1
      .ok (o, !found.isEmpty)

def Session.declaredPresent (s : Session) (target : EffectTarget) :
    Except SessionTrap (Session × Bool) := do
  let (store, found) ← (occupied s.store target).mapError .store
  return ({ s with store }, found)

inductive Judgement where
  | met
  | unmet (target : EffectTarget) (required : Presence)
  | unanswerable
  | notSignedIn (account : Address)
  deriving DecidableEq

def judgeLeaf (codec : Codec) (o : OverlayStore) :
    JudgedLeaf → Except StoreError (OverlayStore × Judgement)
  | .presence target expect => do
    let (o, held) ← occupied o target
    return (o, if metBy expect held then .met else .unmet target expect)
  | .signed cell keys =>
    let (o, bytes) := o.read cell
    .ok (o, if codec.authAdmits cell.owner bytes keys then .met else .notSignedIn cell.owner)
  | .claim _ | .stored _ => .ok (o, .unanswerable)

mutual

/-- `judge`: the verdict and the first leaf that was not met, in one walk. -/
def judgeRule (codec : Codec) (o : OverlayStore) :
    Rule JudgedLeaf → Except StoreError (OverlayStore × Judgement)
  | .require leaf => judgeLeaf codec o leaf
  | .countOf count rules => do
    match ← judgeBranches codec o 0 none rules with
    | (o, none) => return (o, .unanswerable)
    | (o, some (got, unmet)) =>
      return (o, if got ≥ count then .met else unmet.getD .unanswerable)

def judgeBranches (codec : Codec) (o : OverlayStore) (got : ℕ) (unmet : Option Judgement) :
    List (Rule JudgedLeaf) → Except StoreError (OverlayStore × Option (ℕ × Option Judgement))
  | [] => .ok (o, some (got, unmet))
  | rule :: rules => do
    match ← judgeRule codec o rule with
    | (o, .met) => judgeBranches codec o (got + 1) unmet rules
    | (o, .unanswerable) => return (o, none)
    | (o, refusal) => judgeBranches codec o got (unmet <|> some refusal) rules

end

def judgedOwner : JudgedLeaf → Option Address
  | .presence target _ => some target.owner
  | .signed cell _ => some cell.owner
  | .claim _ | .stored _ => none

def judgeCondition (codec : Codec) (judges : OwnerSet) (o : OverlayStore) (condition : Condition) :
    Except MaterializeError OverlayStore :=
  let owners := condition.rule.leaves.filterMap judgedOwner
  let inside := owners.countP judges
  if inside = 0 ∧ owners ≠ [] then .ok o
  else if inside ≠ owners.length then .error (.conditionStraddlesScope condition.node)
  else do
    match ← (judgeRule codec o condition.rule).mapError .store with
    | (o, .met) => .ok o
    | (_, .unmet target required) => .error (.conditionUnmet target required condition.node)
    | (_, .unanswerable) => .error (.conditionUnanswerable condition.node)
    | (_, .notSignedIn account) => .error (.notSignedIn account)

def declaredReservations (declared : EffectSet) : List (SubstateKey × ℕ) :=
  declared.iter.filterMap fun effect =>
    match effect.target, effect.mode with
    | .point key, .reserve amount => some (key, amount)
    | _, _ => none

def adopt (o : OverlayStore) (tx : TxHash) (judges : OwnerSet) (requests : List Request)
    (reservation : SubstateKey × ℕ) : Except MaterializeError (List Request) :=
  let (key, amount) := reservation
  if !judges key.owner then .ok requests
  else
    match o.heldReservation key tx with
    | some held => if held = amount then .ok requests else .error (.heldMismatch key)
    | none => .ok (requests ++ [(tx, key, amount)])

def firstInfeasible (requests : List Request)
    (verdicts : List ((TxHash × SubstateKey) × Feasibility)) : Option (SubstateKey × ℕ) :=
  (verdicts.find? fun verdict => verdict.2 = .infeasible).map fun verdict =>
    (verdict.1.2, ((requests.find? fun request =>
      request.1 = verdict.1.1 && request.2.1 = verdict.1.2).map fun request => request.2.2).getD 0)

def Session.opened (store : OverlayStore) (declaration : Declaration) (table : List Capability)
    (tx : TxHash) (env : EnvInputs) (codec : Codec) (judges : OwnerSet) : Session where
  store := store
  declared := declaration.set
  table := table
  cellResources := declaration.ordered.map DeclaredAccess.holds
  tx := tx
  env := env
  codec := codec
  applies := OwnerSet.whole
  judges := judges
  nullifiers := []
  fee := none
  creditsWithheld := false
  ranges := .new
  invocation := none
  events := []
  eventBound := 0
  nodeCarried := 0
  eventsCarried := 0
  buckets := .new
  supply := .new
  escrow := .new
  crossings := ∅
  issuance := []
  entries := (List.range table.length).map some
  sites := (List.range table.length).map fun index => (index, 1)
  reach := .whole
  taken := ∅

def materializeWithin (store : OverlayStore) (declaration : Declaration) (tx : TxHash)
    (env : EnvInputs) (codec : Codec) (judges : OwnerSet) : Except MaterializeError Session := do
  let store := store.clearLog
  let requests ← (declaredReservations declaration.set).foldlM (adopt store tx judges) []
  let table ← buildTable declaration.set [] declaration.ordered
  match declaration.set.selfConflicting with
  | some key => .error (.selfConflicting key)
  | none =>
    let store ← declaration.conditions.foldlM (judgeCondition codec judges) store
    match judgeAndHold store requests with
    | (_, .error error) => .error (.store error)
    | (store, .ok verdicts) =>
      match firstInfeasible requests verdicts with
      | some (key, amount) => .error (.infeasible key amount)
      | none => return .opened store declaration table tx env codec judges

namespace Session

def withApplies (s : Session) (applies : OwnerSet) : Session := { s with applies }

def withNullifiers (s : Session) (nullifiers : List IntentRecord) : Session := { s with nullifiers }

def withFee (s : Session) (fee : Option FeeBurn) : Session := { s with fee }

def withCreditsWithheld (s : Session) (creditsWithheld : Bool) : Session :=
  { s with creditsWithheld }

end Session

structure Given where
  applies : OwnerSet
  nullifiers : List IntentRecord
  fee : Option FeeBurn
  creditsWithheld : Bool

def Session.given (s : Session) (g : Given) : Session :=
  (((s.withApplies g.applies).withNullifiers g.nullifiers).withFee g.fee).withCreditsWithheld
    g.creditsWithheld

end HyperscaleVm.Kernel

import HyperscaleVm.Guests.Account
import HyperscaleVm.Kernel.Session.Opening
import HyperscaleVm.Kernel.Outcome

/-!
# The two judges of a rule (`session/materialize.rs`, `walk.rs`, `effects/src/auth.rs`)

Conditions are judged at materialization over committed state, and a call's own rules
before its body over what the session shows.
-/

namespace HyperscaleVm.Effects.Rule
open List Bool

variable {L : Type} {met met' : L → Bool} {answer : L → Option Bool}

mutual

def settled (answer : L → Option Bool) : Rule L → Bool
  | .require leaf => (answer leaf).isSome
  | .countOf count rules =>
    settledAll answer rules &&
      (count ≤ holdsCount (answer · = some true) rules ||
        holdsCount (answer · = some true) rules < rules.length)

def settledAll (answer : L → Option Bool) : List (Rule L) → Bool
  | [] => true
  | rule :: rules => rule.settled answer && settledAll answer rules

end

theorem holdsCount_le (met : L → Bool) (rules : List (Rule L)) :
    holdsCount met rules ≤ rules.length := by
  induction rules with
  | nil => exact le_refl 0
  | cons rule rules ih =>
    rw [holdsCount, length_cons]
    split <;> omega

theorem holds_congr (rule : Rule L) (h : ∀ leaf ∈ rule.leaves, met leaf = met' leaf) :
    rule.holds met = rule.holds met' :=
  Bool.eq_iff_iff.mpr ⟨holds_mono rule fun leaf hleaf => (h leaf hleaf ▸ ·),
    holds_mono rule fun leaf hleaf => (h leaf hleaf ▸ ·)⟩

mutual

theorem settled_of_withinCaps : ∀ {depth} {rule : Rule L}, rule.withinCaps depth = true →
    rule.isConstant = false → (∀ leaf ∈ rule.leaves, (answer leaf).isSome = true) →
      rule.settled answer = true
  | _, .require leaf, _, _, h => by
    unfold settled
    exact h leaf (by simp [leaves])
  | _, .countOf count [], _, hconstant, _ => by cases hconstant
  | _, .countOf count (first :: rules), hcaps, _, h => by
    unfold withinCaps at hcaps
    obtain ⟨hcaps, hall⟩ := and_eq_true_iff.mp hcaps
    obtain ⟨-, hformed⟩ := and_eq_true_iff.mp hcaps
    simp only [wellFormed, and_eq_true, Bool.not_eq_true', bne_iff_ne, ne_eq,
      decide_eq_true_eq] at hformed
    obtain ⟨⟨⟨hconstants, -⟩, hcount⟩, -⟩ := hformed
    have hbranches : settledAll answer (first :: rules) = true :=
      settledAll_of_withinCaps hall (fun rule hrule => by
        have hnone := any_eq_false.mp hconstants rule hrule
        simpa using hnone) (fun leaf hleaf => h leaf (by simpa [leaves] using hleaf))
    unfold settled
    rw [hbranches, Bool.true_and, or_eq_true, decide_eq_true_eq, decide_eq_true_eq]
    omega

theorem settledAll_of_withinCaps : ∀ {depth} {rules : List (Rule L)},
    withinCapsAll depth rules = true → (∀ rule ∈ rules, rule.isConstant = false) →
    (∀ leaf ∈ leavesAll rules, (answer leaf).isSome = true) → settledAll answer rules = true
  | _, [], _, _, _ => rfl
  | _, rule :: rules, hcaps, hconstants, h => by
    unfold withinCapsAll at hcaps
    obtain ⟨hfirst, hrest⟩ := and_eq_true_iff.mp hcaps
    unfold settledAll
    rw [settled_of_withinCaps hfirst (hconstants rule mem_cons_self)
        fun leaf hleaf => h leaf (by simp [leavesAll, hleaf]),
      settledAll_of_withinCaps hrest (fun r hr => hconstants r (mem_cons_of_mem _ hr))
        fun leaf hleaf => h leaf (by simp [leavesAll, hleaf])]
    rfl

end

mutual

theorem answered_of_settled : ∀ {rule : Rule L}, rule.settled answer = true →
    ∀ leaf ∈ rule.leaves, (answer leaf).isSome = true
  | .require leaf, h, leaf', hleaf => by
    obtain rfl := mem_singleton.mp hleaf
    exact h
  | .countOf count rules, h, leaf, hleaf => by
    unfold settled at h
    obtain ⟨hall, -⟩ := and_eq_true_iff.mp h
    exact answered_of_settledAll hall leaf hleaf

theorem answered_of_settledAll : ∀ {rules : List (Rule L)},
    settledAll answer rules = true → ∀ leaf ∈ leavesAll rules, (answer leaf).isSome = true
  | [], _, _, hleaf => nomatch hleaf
  | rule :: rules, h, leaf, hleaf => by
    unfold settledAll at h
    obtain ⟨hfirst, hrest⟩ := and_eq_true_iff.mp h
    rcases mem_append.mp hleaf with hleaf | hleaf
    · exact answered_of_settled hfirst leaf hleaf
    · exact answered_of_settledAll hrest leaf hleaf

end

theorem settled_of_holds {depth : ℕ} {rule : Rule L} (hcaps : rule.withinCaps depth = true)
    (hanswered : ∀ leaf ∈ rule.leaves, (answer leaf).isSome = true)
    (hholds : rule.holds (answer · = some true) = true) : rule.settled answer = true := by
  cases hconstant : rule.isConstant with
  | false => exact settled_of_withinCaps hcaps hconstant hanswered
  | true =>
    cases rule with
    | require leaf => cases hconstant
    | countOf count rules =>
      cases rules with
      | nil =>
        unfold holds at hholds
        unfold settled
        rw [hholds]
        rfl
      | cons first rules => cases hconstant

end HyperscaleVm.Effects.Rule

namespace HyperscaleVm.Kernel
open List Option Bool Effects
open Effects.Admission (NodeCall)
open Library
open Std (ExtTreeMap)

/-- How a cell's bytes are read as a rule (`rule_in_cell`) and as an account's record
(`Authority::from_cell`). -/
structure RuleReader where
  ruleInCell : Bytes → Option StoredRule
  authority : Bytes → Option Guests.Authority

namespace RuleReader

variable (reader : RuleReader)

/-- `auth_cell_admits`, of the bytes. -/
def authCellAdmits (owner : Address) (cell : Option Bytes) (keys : List Claim) : Bool :=
  match cell with
  | none | some [] => Guests.authCellAdmits owner none keys
  | some bytes =>
    match reader.authority bytes with
    | some authority => Guests.authCellAdmits owner (some authority) keys
    | none => false

def cellAdmits (bytes : Bytes) (evidence : List Claim) : Bool :=
  match reader.ruleInCell bytes with
  | some rule => Guests.admittedBy rule evidence
  | none => false

end RuleReader

def Codec.reading (codec : Codec) (reader : RuleReader) : Codec :=
  { codec with authAdmits := reader.authCellAdmits, ruleAdmits := reader.cellAdmits }

def holdsAnything (o : OverlayStore) (target : EffectTarget) : Option Bool :=
  ((occupied o target).map Prod.snd).toOption

def committedAnswer (codec : Codec) (o : OverlayStore) : JudgedLeaf → Option Bool
  | .presence target expect => (holdsAnything o target).map (metBy expect)
  | .signed cell keys => some (codec.authAdmits cell.owner (o.cellValue cell) keys)
  | .claim _ | .stored _ => none

def SameState (base o : OverlayStore) : Prop := o = { base with log := o.log }

theorem SameState.refl (o : OverlayStore) : SameState o o := rfl

variable {base o : OverlayStore}

theorem SameState.logged (h : SameState base o) (accesses : List Access) :
    SameState base { o with log := o.log ++ accesses } := by
  unfold SameState at h ⊢
  rw [h]

theorem SameState.cellValue (h : SameState base o) (key : SubstateKey) :
    o.cellValue key = base.cellValue key := by
  rw [h]
  rfl

theorem SameState.holdsAnything (h : SameState base o) (target : EffectTarget) :
    holdsAnything o target = holdsAnything base target := by
  unfold Kernel.holdsAnything
  rw [h]
  generalize o.log = log
  cases target with
  | point key =>
    change (Except.map _ (if base.pendingMap.contains key then _ else _)).toOption =
      (Except.map _ (if base.pendingMap.contains key then _ else _)).toOption
    split
    · change ((standingAmount (base.cellValue key) >>= _).map _).toOption =
        ((standingAmount (base.cellValue key) >>= _).map _).toOption
      cases standingAmount (base.cellValue key) with
      | error error => rfl
      | ok committed =>
        change ((withQueued base key committed >>= _).map _).toOption =
          ((withQueued base key committed >>= _).map _).toOption
        cases withQueued base key committed <;> rfl
    · rfl
  | entry owner collection order => rfl
  | range owner collection lo hi cap =>
    dsimp only [occupied]
    split <;> rfl

theorem occupied_iff {o' : OverlayStore} {target : EffectTarget} {held : Bool} :
    occupied o target = .ok (o', held) ↔ holdsAnything o target = some held ∧
      o' = { o with log := o.log ++ occupiedAccesses target } := by
  constructor
  · intro h
    refine ⟨?_, Session.occupied_ok h⟩
    unfold holdsAnything
    rw [h]
    rfl
  · rintro ⟨h, rfl⟩
    unfold holdsAnything at h
    cases hoccupied : occupied o target with
    | error error =>
      rw [hoccupied] at h
      cases h
    | ok found =>
      obtain ⟨o₁, held'⟩ := found
      rw [hoccupied] at h
      cases h
      rw [Session.occupied_ok hoccupied]

structure JudgedAs (base : OverlayStore) (settled holds : Bool)
    (result : Except StoreError (OverlayStore × Judgement)) : Prop where
  answered : settled = true → ∃ o' verdict, result = .ok (o', verdict) ∧ SameState base o' ∧
    verdict ≠ .unanswerable ∧ (verdict = .met ↔ holds = true)
  unanswered : settled = false → ∀ o' verdict, result = .ok (o', verdict) → verdict = .unanswerable

structure CountedAs (base : OverlayStore) (settled : Bool) (got count : ℕ) (short : Bool)
    (unmet : Option Judgement)
    (result : Except StoreError (OverlayStore × Option (ℕ × Option Judgement))) : Prop where
  answered : settled = true → ∃ o' unmet', result = .ok (o', some (got + count, unmet')) ∧
    SameState base o' ∧ (∀ reason, unmet' = some reason → reason ≠ .met ∧ reason ≠ .unanswerable) ∧
    (unmet'.isSome = true ↔ unmet.isSome = true ∨ short = true)
  unanswered : settled = false → ∀ o' counted, result = .ok (o', counted) → counted = none

variable {codec : Codec} {rule : Rule JudgedLeaf}

theorem judgeLeaf_spec (codec : Codec) {o : OverlayStore} (leaf : JudgedLeaf)
    (h : SameState base o) :
    JudgedAs base (committedAnswer codec base leaf).isSome
      (committedAnswer codec base leaf = some true) (judgeLeaf codec o leaf) := by
  cases leaf with
  | presence target expect =>
    have hanswer : committedAnswer codec base (.presence target expect) =
        (holdsAnything o target).map (metBy expect) := by
      rw [h.holdsAnything]
      rfl
    rw [hanswer]
    constructor
    · intro hsome
      obtain ⟨held, hheld⟩ := isSome_iff_exists.mp (isSome_map.symm.trans hsome)
      refine ⟨_, _, bind_ok.mpr ⟨_, occupied_iff.mpr ⟨hheld, rfl⟩, rfl⟩, h.logged _, ?_⟩
      cases hmet : metBy expect held <;> simp [hheld, hmet]
    · intro hnone o' verdict hjudge
      obtain ⟨⟨o₁, held⟩, hoccupied, -⟩ := bind_ok.mp hjudge
      rw [(occupied_iff.mp hoccupied).1] at hnone
      cases hnone
  | signed cell keys =>
    refine ⟨fun _ => ⟨_, _, rfl, h.logged _, ?_⟩, nofun⟩
    rw [h.cellValue]
    cases hadmits : codec.authAdmits cell.owner (base.cellValue cell) keys <;>
      simp [committedAnswer, hadmits]
  | claim | stored =>
    refine ⟨nofun, fun _ o' verdict hjudge => ?_⟩
    cases hjudge
    rfl

theorem judgeBranches_cons {o₁ : OverlayStore}
    {rules : List (Rule JudgedLeaf)} {verdict : Judgement} (got : ℕ) (unmet : Option Judgement)
    (h : judgeRule codec o rule = .ok (o₁, verdict)) (hanswered : verdict ≠ .unanswerable) :
    judgeBranches codec o got unmet (rule :: rules) =
      if verdict = .met then judgeBranches codec o₁ (got + 1) unmet rules
      else judgeBranches codec o₁ got (unmet <|> some verdict) rules := by
  rw [judgeBranches, h]
  cases verdict with
  | met | unmet | notSignedIn => rfl
  | unanswerable => exact absurd rfl hanswered

def JudgedBy (codec : Codec) (base : OverlayStore) (answer : JudgedLeaf → Option Bool) : Prop :=
  ∀ {o : OverlayStore} (leaf : JudgedLeaf), SameState base o →
    JudgedAs base (answer leaf).isSome (answer leaf = some true) (judgeLeaf codec o leaf)

variable {answer : JudgedLeaf → Option Bool}

mutual

theorem judgeRule_spec (hleaf : JudgedBy codec base answer) : ∀ (rule : Rule JudgedLeaf)
    {o : OverlayStore}, SameState base o → JudgedAs base (rule.settled answer)
      (rule.holds (answer · = some true)) (judgeRule codec o rule)
  | .require leaf, o, h => by
    unfold Rule.settled Rule.holds judgeRule
    exact hleaf leaf h
  | .countOf count rules, o, h => by
    have hbranches := judgeBranches_spec hleaf rules h 0 fun _ (hreason : none = some _) =>
      nomatch hreason
    unfold Rule.settled Rule.holds judgeRule
    have hshort := Rule.holdsCount_le (answer · = some true) rules
    refine ⟨fun hsettled => ?_, fun hsettled o' verdict hjudge => ?_⟩
    · obtain ⟨hall, hreached⟩ := and_eq_true_iff.mp hsettled
      obtain ⟨o', unmet, hcounted, hsame, hreason, hfirst⟩ := hbranches.answered hall
      refine ⟨o', _, bind_ok.mpr ⟨_, hcounted, rfl⟩, hsame, ?_⟩
      rw [decide_eq_true_eq, zero_add]
      split
      · rename_i hmet
        simp [hmet]
      · rename_i hfew
        simp only [or_eq_true, decide_eq_true_eq] at hreached hfirst
        obtain ⟨reason, rfl⟩ := isSome_iff_exists.mp (hfirst.mpr (.inr (by omega)))
        exact ⟨(hreason reason rfl).2, iff_of_false (hreason reason rfl).1 hfew⟩
    · obtain ⟨⟨o₁, counted⟩, hcounted, hjudge⟩ := bind_ok.mp hjudge
      cases hall : Rule.settledAll answer rules with
      | false =>
        obtain rfl := hbranches.unanswered hall _ _ hcounted
        cases hjudge
        rfl
      | true =>
        obtain ⟨o₂, unmet, hcounted', -, -, hfirst⟩ := hbranches.answered hall
        obtain ⟨rfl, rfl⟩ := Prod.mk.inj (Except.ok.inj (hcounted.symm.trans hcounted'))
        rw [hall, Bool.true_and, or_eq_false_iff, decide_eq_false_iff_not,
          decide_eq_false_iff_not] at hsettled
        have hnone : unmet = none := by
          refine not_isSome_iff_eq_none.mp fun hsome => ?_
          rcases hfirst.mp hsome with hsome | hsome
          · cases hsome
          · exact hsettled.2 (of_decide_eq_true hsome)
        subst hnone
        dsimp only at hjudge
        rw [zero_add, if_neg hsettled.1] at hjudge
        cases hjudge
        rfl

theorem judgeBranches_spec (hleaf : JudgedBy codec base answer) : ∀ (rules : List (Rule JudgedLeaf))
    {o : OverlayStore}, SameState base o → ∀ (got : ℕ) {unmet : Option Judgement},
    (∀ reason, unmet = some reason → reason ≠ .met ∧ reason ≠ .unanswerable) →
    CountedAs base (Rule.settledAll answer rules) got (Rule.holdsCount (answer · = some true) rules)
      (Rule.holdsCount (answer · = some true) rules < rules.length) unmet
      (judgeBranches codec o got unmet rules)
  | [], o, h, got, unmet, hunmet => by
    unfold judgeBranches Rule.holdsCount
    exact ⟨fun _ => ⟨o, unmet, rfl, h, hunmet, by simp⟩, nofun⟩
  | rule :: rules, o, h, got, unmet, hunmet => by
    have hrule := judgeRule_spec hleaf rule h
    unfold Rule.settledAll Rule.holdsCount
    cases hfirst : rule.settled answer with
    | false =>
      refine ⟨nofun, fun _ o' counted hcounted => ?_⟩
      rw [judgeBranches] at hcounted
      obtain ⟨⟨o₁, verdict⟩, hjudge, hcounted⟩ := bind_ok.mp hcounted
      obtain rfl := hrule.unanswered hfirst _ _ hjudge
      cases hcounted
      rfl
    | true =>
      obtain ⟨o₁, verdict, hjudge, hsame, hanswered, hverdict⟩ := hrule.answered hfirst
      rw [Bool.true_and, judgeBranches_cons got unmet hjudge hanswered]
      by_cases hmet : verdict = .met
      · have hrest := judgeBranches_spec hleaf rules hsame (got + 1) hunmet
        rw [if_pos hmet, if_pos (hverdict.mp hmet)]
        refine ⟨fun hsettled => ?_, hrest.unanswered⟩
        obtain ⟨o', unmet', hcounted, hsame', hreason, hshort⟩ := hrest.answered hsettled
        refine ⟨o', unmet', ?_, hsame', hreason, ?_⟩
        · rw [hcounted, add_assoc]
        · rw [hshort, decide_eq_true_eq, decide_eq_true_eq, length_cons]
          refine or_congr_right ?_
          omega
      · have hunmet' : ∀ reason, (unmet <|> some verdict) = some reason →
            reason ≠ .met ∧ reason ≠ .unanswerable := by
          intro reason hsome
          cases unmet with
          | none =>
            cases hsome
            exact ⟨hmet, hanswered⟩
          | some first => exact hunmet reason hsome
        have hrest := judgeBranches_spec hleaf rules hsame got hunmet'
        have hless := Nat.lt_succ_of_le (Rule.holdsCount_le (answer · = some true) rules)
        rw [if_neg hmet, if_neg (hverdict.not.mp hmet), zero_add]
        refine ⟨fun hsettled => ?_, hrest.unanswered⟩
        obtain ⟨o', unmet', hcounted, hsame', hreason, hshort⟩ := hrest.answered hsettled
        have hsome : (unmet <|> some verdict).isSome = true := by cases unmet <;> rfl
        exact ⟨o', unmet', hcounted, hsame', hreason,
          iff_of_true (hshort.mpr (.inl hsome)) (.inr (decide_eq_true hless))⟩

end

def conditionOwners (condition : Condition) : List Address :=
  condition.rule.leaves.filterMap judgedOwner

/-- Every target of the condition is another judge's, and it has one. -/
def OutOfScope (judges : OwnerSet) (condition : Condition) : Prop :=
  conditionOwners condition ≠ [] ∧ ∀ owner ∈ conditionOwners condition, judges owner = false

def InScope (judges : OwnerSet) (condition : Condition) : Prop :=
  ∀ owner ∈ conditionOwners condition, judges owner = true

variable {judges : OwnerSet} {condition : Condition}

theorem judgeCondition_straddles (hout : ¬ OutOfScope judges condition)
    (hin : ¬ InScope judges condition) :
    judgeCondition codec judges o condition = .error (.conditionStraddlesScope condition.node) := by
  have hskips :
      ¬ ((conditionOwners condition).countP judges = 0 ∧ conditionOwners condition ≠ []) := by
    rintro ⟨hnone, howned⟩
    refine hout ⟨howned, fun owner howner => ?_⟩
    simpa using countP_eq_zero.mp hnone owner howner
  exact (if_neg hskips).trans (if_pos (countP_eq_length.not.mpr hin))

theorem judgeCondition_iff (h : SameState base o) :
    (∃ o', judgeCondition codec judges o condition = .ok o' ∧ SameState base o') ↔
      OutOfScope judges condition ∨ InScope judges condition ∧
        condition.rule.settled (committedAnswer codec base) = true ∧
        condition.rule.holds (committedAnswer codec base · = some true) = true := by
  have hrule := judgeRule_spec (judgeLeaf_spec codec) condition.rule h
  by_cases hout : OutOfScope judges condition
  · have hnone : (conditionOwners condition).countP judges = 0 := by
      simpa [countP_eq_zero] using hout.2
    exact iff_of_true ⟨o, if_pos ⟨hnone, hout.1⟩, h⟩ (.inl hout)
  rw [or_iff_right hout]
  by_cases hin : InScope judges condition
  · have hskips :
        ¬ ((conditionOwners condition).countP judges = 0 ∧ conditionOwners condition ≠ []) := by
      rintro ⟨hnone, howned⟩
      rw [countP_eq_length.mpr hin, length_eq_zero_iff] at hnone
      exact howned hnone
    have hjudges : judgeCondition codec judges o condition = _ :=
      (if_neg hskips).trans (if_neg (not_not.mpr (countP_eq_length.mpr hin)))
    rw [hjudges, and_iff_right hin]
    constructor
    · rintro ⟨o', hjudge, -⟩
      obtain ⟨⟨o₁, verdict⟩, hjudged, hpassed⟩ := bind_ok.mp hjudge
      have hjudged := mapError_ok.mp hjudged
      have hmet : verdict = .met := by
        cases verdict <;> first | rfl | cases hpassed
      cases hsettled : condition.rule.settled (committedAnswer codec base) with
      | false =>
        rw [hrule.unanswered hsettled _ _ hjudged] at hmet
        cases hmet
      | true =>
        obtain ⟨o₂, verdict', hjudged', -, -, hverdict⟩ := hrule.answered hsettled
        obtain ⟨rfl, rfl⟩ := Prod.mk.inj (Except.ok.inj (hjudged.symm.trans hjudged'))
        exact ⟨rfl, hverdict.mp hmet⟩
    · rintro ⟨hsettled, hholds⟩
      obtain ⟨o₁, verdict, hjudged, hsame, -, hverdict⟩ := hrule.answered hsettled
      obtain rfl := hverdict.mpr hholds
      exact ⟨o₁, bind_ok.mpr ⟨_, mapError_ok.mpr hjudged, rfl⟩, hsame⟩
  · rw [judgeCondition_straddles hout hin]
    exact iff_of_false nofun fun hall => hin hall.1

theorem judgeConditions_iff {conditions : List Condition} : ∀ {o : OverlayStore}, SameState base o →
    ((∃ o', conditions.foldlM (judgeCondition codec judges) o = .ok o') ↔
      ∀ condition ∈ conditions, OutOfScope judges condition ∨ InScope judges condition ∧
        condition.rule.settled (committedAnswer codec base) = true ∧
        condition.rule.holds (committedAnswer codec base · = some true) = true) := by
  induction conditions with
  | nil => exact fun {o} _ => ⟨fun _ => nofun, fun _ => ⟨o, rfl⟩⟩
  | cons condition conditions ih =>
    intro o h
    rw [forall_mem_cons, ← judgeCondition_iff h]
    constructor
    · rintro ⟨o', hall⟩
      rw [foldlM_cons] at hall
      obtain ⟨o₁, hfirst, hrest⟩ := bind_ok.mp hall
      have hsame : SameState base o₁ := by
        have hlooked := (judgeCondition_ok hfirst).same
        unfold SameState at h ⊢
        rw [hlooked, h]
      exact ⟨⟨o₁, hfirst, hsame⟩, (ih hsame).mp ⟨o', hrest⟩⟩
    · rintro ⟨⟨o₁, hfirst, hsame⟩, hrest⟩
      obtain ⟨o', hrest⟩ := (ih hsame).mpr hrest
      exact ⟨o', by rw [foldlM_cons]; exact bind_ok.mpr ⟨o₁, hfirst, hrest⟩⟩

namespace Session

/-- One leaf of `satisfies`: a stored rule is decoded once for the whole gate. -/
def satisfiesLeaf (evidence : List Claim) (s : Session) (judged : ExtTreeMap SubstateKey Bool) :
    JudgedLeaf → Except SessionTrap (Session × ExtTreeMap SubstateKey Bool × Bool)
  | .claim claim => .ok (s, judged, evidence.contains claim)
  | .signed _ _ => .ok (s, judged, false)
  | .presence _ .either => .ok (s, judged, true)
  | .presence target .absent => do
    let (s, held) ← s.declaredPresent target
    return (s, judged, !held)
  | .presence target .present => do
    let (s, held) ← s.declaredPresent target
    return (s, judged, held)
  | .stored cell =>
    match judged[cell]? with
    | some verdict => .ok (s, judged, verdict)
    | none =>
      let (s, bytes) := s.declaredCell cell
      let verdict := !bytes.isEmpty && s.codec.ruleAdmits bytes evidence
      .ok (s, judged.insert cell verdict, verdict)

mutual

def satisfies (evidence : List Claim) (s : Session) (judged : ExtTreeMap SubstateKey Bool) :
    Rule JudgedLeaf → Except SessionTrap (Session × ExtTreeMap SubstateKey Bool × Bool)
  | .require leaf => satisfiesLeaf evidence s judged leaf
  | .countOf count rules => do
    let (s, judged, met) ← satisfiesCount evidence s judged 0 rules
    return (s, judged, decide (met ≥ count))

def satisfiesCount (evidence : List Claim) (s : Session) (judged : ExtTreeMap SubstateKey Bool)
    (met : ℕ) : List (Rule JudgedLeaf) →
    Except SessionTrap (Session × ExtTreeMap SubstateKey Bool × ℕ)
  | [] => .ok (s, judged, met)
  | rule :: rules => do
    let (s, judged, holds) ← satisfies evidence s judged rule
    satisfiesCount evidence s judged (if holds then met + 1 else met) rules

end

def gateRule (evidence : List Claim) (node : ℕ) (state : Session × ExtTreeMap SubstateKey Bool)
    (rule : Rule JudgedLeaf) : Except Outcome (Session × ExtTreeMap SubstateKey Bool) :=
  match satisfies evidence state.1 state.2 rule with
  | .ok (s, judged, true) => .ok (s, judged)
  | .ok (_, _, false) => .error (.conditionUnmet (.satisfies node))
  | .error _ => .error (.protocolError .authorityCellUnreadable)

def gated (call : NodeCall) (node : ℕ) (s : Session) : Except Outcome Session :=
  (call.requires.foldlM (gateRule call.evidence node) (s, ∅)).map Prod.fst

end Session

def storedMet (codec : Codec) (evidence : List Claim) (o : OverlayStore)
    (cell : SubstateKey) : Bool :=
  !((o.cellValue cell).getD []).isEmpty && codec.ruleAdmits ((o.cellValue cell).getD []) evidence

def gateAnswer (codec : Codec) (evidence : List Claim) (o : OverlayStore) : JudgedLeaf → Option Bool
  | .claim claim => some (evidence.contains claim)
  | .signed _ _ => some false
  | .presence _ .either => some true
  | .presence target .absent => (holdsAnything o target).map (!·)
  | .presence target .present => holdsAnything o target
  | .stored cell => some (storedMet codec evidence o cell)

/-- A gate's session and its verdicts, over the state the gate opened on. -/
structure Gating (codec : Codec) (evidence : List Claim) (base : OverlayStore) (s : Session)
    (judged : ExtTreeMap SubstateKey Bool) : Prop where
  same : SameState base s.store
  reads : s.codec = codec
  kept : ∀ cell verdict, judged[cell]? = some verdict → verdict = storedMet codec evidence base cell

structure GatedAs {α : Type} (codec : Codec) (evidence : List Claim) (base : OverlayStore)
    (answer : Option α) (result : Except SessionTrap (Session × ExtTreeMap SubstateKey Bool × α)) :
    Prop where
  answered : ∀ met, answer = some met → ∃ t judged, result = .ok (t, judged, met) ∧
    Gating codec evidence base t judged
  unanswered : answer = none → ∀ found, result ≠ .ok found

namespace Gating

variable {codec : Codec} {evidence : List Claim} {base : OverlayStore} {s : Session}
  {judged : ExtTreeMap SubstateKey Bool} (h : Gating codec evidence base s judged)
include h

theorem here {α : Type} (met : α) :
    GatedAs codec evidence base (some met) (.ok (s, judged, met)) := by
  refine ⟨fun met' hmet => ?_, nofun⟩
  obtain rfl := some.inj hmet
  exact ⟨s, judged, rfl, h⟩

theorem present (target : EffectTarget)
    (taken : Bool → Bool) : GatedAs codec evidence base ((holdsAnything base target).map taken)
      (s.declaredPresent target >>= fun found => .ok (found.1, judged, taken found.2)) := by
  rw [← h.same.holdsAnything]
  constructor
  · intro met hmet
    obtain ⟨held, hheld, rfl⟩ := map_eq_some_iff.mp hmet
    have hoccupied := occupied_iff.mpr ⟨hheld, rfl⟩
    have hpresent : s.declaredPresent target =
        .ok ({ s with store := { s.store with log := s.store.log ++ occupiedAccesses target } },
          held) :=
      bind_ok.mpr ⟨_, mapError_ok.mpr hoccupied, rfl⟩
    exact ⟨_, judged, bind_ok.mpr ⟨_, hpresent, rfl⟩, h.same.logged _, h.reads, h.kept⟩
  · intro hnone found hfound
    obtain ⟨⟨t, held⟩, hpresent, -⟩ := bind_ok.mp hfound
    obtain ⟨⟨o, held'⟩, hoccupied, -⟩ := bind_ok.mp hpresent
    rw [(occupied_iff.mp (mapError_ok.mp hoccupied)).1] at hnone
    cases hnone

theorem stored (cell : SubstateKey) :
    GatedAs codec evidence base (some (storedMet codec evidence base cell))
      (Session.satisfiesLeaf evidence s judged (.stored cell)) := by
  dsimp only [Session.satisfiesLeaf]
  cases hjudged : judged[cell]? with
  | some verdict =>
    obtain rfl := h.kept cell verdict hjudged
    exact h.here _
  | none =>
    have hmet : (!(s.declaredCell cell).2.isEmpty &&
        s.codec.ruleAdmits (s.declaredCell cell).2 evidence) =
          storedMet codec evidence base cell := by
      unfold storedMet
      rw [← h.same.cellValue, ← h.reads]
      rfl
    have hkept : Gating codec evidence base (s.declaredCell cell).1
        (judged.insert cell (storedMet codec evidence base cell)) := by
      refine ⟨h.same.logged _, h.reads, fun cell' verdict hfound => ?_⟩
      rw [Library.getElem?_insert_eq] at hfound
      split at hfound
      · rename_i hcell
        obtain rfl := some.inj hfound
        rw [hcell]
      · exact h.kept cell' verdict hfound
    rw [← hmet] at hkept ⊢
    exact hkept.here _

theorem leaf (leaf : JudgedLeaf) :
    GatedAs codec evidence base (gateAnswer codec evidence base leaf)
      (Session.satisfiesLeaf evidence s judged leaf) := by
  cases leaf with
  | claim | signed => exact h.here _
  | stored cell => exact h.stored cell
  | presence target expect =>
    cases expect with
    | either => exact h.here _
    | absent => exact h.present target (!·)
    | present =>
      have hlook := h.present target id
      rw [Option.map_id_fun, id] at hlook
      exact hlook

end Gating

def answeredBy (codec : Codec) (evidence : List Claim) (base : OverlayStore)
    (leaves : List JudgedLeaf) : Bool :=
  leaves.all fun leaf => (gateAnswer codec evidence base leaf).isSome

variable {evidence : List Claim}

theorem answeredBy_append (xs ys : List JudgedLeaf) : answeredBy codec evidence base (xs ++ ys) =
      (answeredBy codec evidence base xs && answeredBy codec evidence base ys) :=
  all_append

mutual

theorem satisfies_spec : ∀ (rule : Rule JudgedLeaf) {s : Session}
    {judged : ExtTreeMap SubstateKey Bool}, Gating codec evidence base s judged →
      GatedAs codec evidence base (if answeredBy codec evidence base rule.leaves then
        some (rule.holds (gateAnswer codec evidence base · = some true)) else none)
      (Session.satisfies evidence s judged rule)
  | .require leaf, s, judged, h => by
    have hleaf := h.leaf leaf
    unfold Session.satisfies Rule.holds Rule.leaves answeredBy
    cases hanswer : gateAnswer codec evidence base leaf with
    | none => simpa [hanswer] using hleaf
    | some met => cases met <;> simpa [hanswer] using hleaf
  | .countOf count rules, s, judged, h => by
    have hcount := satisfiesCount_spec rules h 0
    unfold Session.satisfies Rule.holds Rule.leaves
    cases hanswered : answeredBy codec evidence base (Rule.leavesAll rules) with
    | false =>
      rw [hanswered] at hcount
      refine ⟨nofun, fun _ found hfound => ?_⟩
      obtain ⟨counted, hcounted, -⟩ := bind_ok.mp hfound
      exact hcount.unanswered rfl counted hcounted
    | true =>
      rw [hanswered] at hcount
      refine ⟨fun met hmet => ?_, nofun⟩
      obtain ⟨t, judged', hcounted, hgating⟩ := hcount.answered _ rfl
      obtain rfl := some.inj hmet
      rw [zero_add] at hcounted
      exact ⟨t, judged', bind_ok.mpr ⟨_, hcounted, rfl⟩, hgating⟩

theorem satisfiesCount_spec : ∀ (rules : List (Rule JudgedLeaf)) {s : Session}
    {judged : ExtTreeMap SubstateKey Bool}, Gating codec evidence base s judged → ∀ met :
    ℕ, GatedAs codec evidence base
      (if answeredBy codec evidence base (Rule.leavesAll rules) then
        some (met + Rule.holdsCount (gateAnswer codec evidence base · = some true) rules) else none)
      (Session.satisfiesCount evidence s judged met rules)
  | [], s, judged, h, met => h.here met
  | rule :: rules, s, judged, h, met => by
    have hrule := satisfies_spec rule h
    unfold Session.satisfiesCount Rule.holdsCount Rule.leavesAll
    rw [answeredBy_append]
    cases hfirst : answeredBy codec evidence base rule.leaves with
    | false =>
      rw [hfirst] at hrule
      refine ⟨nofun, fun _ found hfound => ?_⟩
      obtain ⟨judgement, hjudged, -⟩ := bind_ok.mp hfound
      exact hrule.unanswered rfl judgement hjudged
    | true =>
      rw [hfirst] at hrule
      obtain ⟨t, judged', hjudged, hgating⟩ := hrule.answered _ rfl
      rw [hjudged, Bool.true_and]
      have hrest := satisfiesCount_spec rules hgating
        (if rule.holds (gateAnswer codec evidence base · = some true) then met + 1 else met)
      convert hrest using 3
      · split <;> omega
      · rfl

end

theorem gateRules_iff (node : ℕ)
    {requires : List (Rule JudgedLeaf)} : ∀ {s : Session} {judged : ExtTreeMap SubstateKey Bool},
    Gating codec evidence base s judged →
    ((∃ state, requires.foldlM (Session.gateRule evidence node) (s, judged) = .ok state) ↔
      ∀ rule ∈ requires, answeredBy codec evidence base rule.leaves = true ∧
        rule.holds (gateAnswer codec evidence base · = some true) = true) := by
  induction requires with
  | nil => exact fun {s judged} _ => ⟨fun _ => nofun, fun _ => ⟨(s, judged), rfl⟩⟩
  | cons rule requires ih =>
    intro s judged h
    have hrule := satisfies_spec rule h
    rw [forall_mem_cons, foldlM_cons]
    cases hanswered : answeredBy codec evidence base rule.leaves with
    | false =>
      rw [hanswered] at hrule
      refine iff_of_false ?_ (fun hall => Bool.noConfusion hall.1.1)
      rintro ⟨state, hstate⟩
      obtain ⟨state₁, hfirst, -⟩ := bind_ok.mp hstate
      unfold Session.gateRule at hfirst
      cases hjudged : Session.satisfies evidence s judged rule with
      | error trap =>
        rw [hjudged] at hfirst
        cases hfirst
      | ok found => exact hrule.unanswered rfl found hjudged
    | true =>
      rw [hanswered] at hrule
      obtain ⟨t, judged', hjudged, hgating⟩ := hrule.answered _ rfl
      unfold Session.gateRule
      dsimp only
      rw [hjudged]
      cases hholds : rule.holds (gateAnswer codec evidence base · = some true) with
      | false =>
        refine iff_of_false ?_ (fun hall => Bool.noConfusion hall.1.2)
        rintro ⟨state, hstate⟩
        cases hstate
      | true => exact (ih hgating).trans (and_iff_right ⟨rfl, rfl⟩).symm

def asksPresence : JudgedLeaf → Bool
  | .presence _ _ => true
  | .claim _ | .signed _ _ | .stored _ => false

theorem gateAnswer_of_committed {leaf : JudgedLeaf} (hleaf : asksPresence leaf = true) {met : Bool}
    (h : committedAnswer codec o leaf = some met) :
    gateAnswer codec evidence o leaf = some met := by
  cases leaf with
  | presence target expect =>
    obtain ⟨held, hheld, rfl⟩ := map_eq_some_iff.mp h
    cases expect with
    | either => rfl
    | absent => exact congrArg (Option.map (!·)) hheld
    | present => exact hheld
  | claim | signed | stored => cases hleaf

theorem judges_agree {s : Session} {judged : ExtTreeMap SubstateKey Bool}
    (h : Gating codec evidence s.store s judged)
    (hleaves : ∀ leaf ∈ rule.leaves, asksPresence leaf = true)
    (hsettled : rule.settled (committedAnswer codec s.store) = true) :
    ∃ o verdict t judged' met, judgeRule codec s.store rule = .ok (o, verdict) ∧
      Session.satisfies evidence s judged rule = .ok (t, judged', met) ∧
      (verdict = .met ↔ met = true) := by
  have hsame : ∀ leaf ∈ rule.leaves,
      gateAnswer codec evidence s.store leaf = committedAnswer codec s.store leaf := by
    intro leaf hleaf
    obtain ⟨met, hmet⟩ := isSome_iff_exists.mp (Rule.answered_of_settled hsettled leaf hleaf)
    rw [hmet]
    exact gateAnswer_of_committed (hleaves leaf hleaf) hmet
  have hholds : rule.holds (gateAnswer codec evidence s.store · = some true) =
      rule.holds (committedAnswer codec s.store · = some true) :=
    Rule.holds_congr rule fun leaf hleaf => by rw [hsame leaf hleaf]
  have hanswered : answeredBy codec evidence s.store rule.leaves = true := by
    refine all_eq_true.mpr fun leaf hleaf => ?_
    rw [hsame leaf hleaf]
    exact Rule.answered_of_settled hsettled leaf hleaf
  have hgate := satisfies_spec rule h
  rw [hanswered] at hgate
  obtain ⟨t, judged', hsatisfies, -⟩ := hgate.answered _ rfl
  obtain ⟨o, verdict, hjudge, -, -, hverdict⟩ :=
    (judgeRule_spec (judgeLeaf_spec codec) rule (.refl s.store)).answered hsettled
  refine ⟨o, verdict, t, judged', _, hjudge, hsatisfies, ?_⟩
  rw [hverdict, hholds]

namespace Session

def reading (s : Session) (reader : RuleReader) : Session :=
  { s with codec := s.codec.reading reader }

/-- Conditions pass where each is another's to judge, or is in scope, settled and met as a formula
over what committed state answers; a gate opens where each rule is met as a formula over what the
gate answers. Of presence alone, the two say the same. -/
theorem rules_are_judged_as_formulas (s : Session) (reader : RuleReader) (judges : OwnerSet)
    (call : NodeCall) (node : ℕ) :
    (∀ conditions : List Condition,
      (∃ o, conditions.foldlM (judgeCondition (s.reading reader).codec judges) s.store = .ok o) ↔
        ∀ condition ∈ conditions, OutOfScope judges condition ∨ InScope judges condition ∧
          condition.rule.settled (committedAnswer (s.reading reader).codec s.store) = true ∧
          condition.rule.holds (committedAnswer (s.reading reader).codec s.store · = some true)
            = true) ∧
    (∀ condition, ¬ OutOfScope judges condition → ¬ InScope judges condition →
      judgeCondition (s.reading reader).codec judges s.store condition =
        .error (.conditionStraddlesScope condition.node)) ∧
    (∀ (rule : Rule JudgedLeaf) (depth : ℕ), rule.withinCaps depth = true → (∀ leaf ∈ rule.leaves,
        (committedAnswer (s.reading reader).codec s.store leaf).isSome = true) →
      rule.holds (committedAnswer (s.reading reader).codec s.store · = some true) = true →
      rule.settled (committedAnswer (s.reading reader).codec s.store) = true) ∧
    ((∃ t, (s.reading reader).gated call node = .ok t) ↔ ∀ rule ∈ call.requires,
      answeredBy (s.reading reader).codec call.evidence s.store rule.leaves = true ∧
        rule.holds (gateAnswer (s.reading reader).codec call.evidence s.store · = some true)
          = true) ∧
    (∀ rule : Rule JudgedLeaf, (∀ leaf ∈ rule.leaves, asksPresence leaf = true) →
      rule.settled (committedAnswer (s.reading reader).codec s.store) = true →
      ∃ o verdict t judged met, judgeRule (s.reading reader).codec s.store rule = .ok (o, verdict) ∧
        (s.reading reader).satisfies call.evidence ∅ rule = .ok (t, judged, met) ∧
        (verdict = .met ↔ met = true)) := by
  have hgating : Gating (s.reading reader).codec call.evidence s.store (s.reading reader) ∅ :=
    ⟨.refl _, rfl, fun cell verdict hfound => by simp at hfound⟩
  refine ⟨fun conditions => judgeConditions_iff (.refl _), fun condition =>
    judgeCondition_straddles, fun rule depth => Rule.settled_of_holds, ?_, fun rule =>
      judges_agree (s := s.reading reader) hgating⟩
  rw [← gateRules_iff node hgating]
  constructor
  · rintro ⟨t, hgated⟩
    obtain ⟨state, hstate, -⟩ := map_ok.mp hgated
    exact ⟨state, hstate⟩
  · rintro ⟨state, hstate⟩
    exact ⟨state.1, map_ok.mpr ⟨state, hstate, rfl⟩⟩

end Session

def unreadable : RuleReader := ⟨fun _ => none, fun _ => none⟩

def askedOwner : Address := ⟨3, .principal⟩

def askedSession : Session :=
  .opened (.new MemoryStore.new.toBaseline) (declaring []) [] 9 plainEnv
    (plainCodec.reading unreadable) .whole

def partlyRead : Rule JudgedLeaf :=
  .countOf 1 [.require (.presence (.point ⟨askedOwner, 0⟩) .either),
    .require (.stored ⟨askedOwner, 1⟩)]

def signIn : Rule JudgedLeaf := .require (.signed ⟨askedOwner, 0⟩ [.ofSubject askedOwner])

/-- A condition in scope is met as a formula and refused; a sign-in is met for one judge and not
for the other. -/
theorem judges_part_on_leaves_they_do_not_read :
    (∀ met : JudgedLeaf → Bool, met (.presence (.point ⟨askedOwner, 0⟩) .either) = true →
      partlyRead.holds met = true) ∧ InScope .whole ⟨partlyRead, none⟩ ∧
    judgeCondition askedSession.codec .whole askedSession.store ⟨partlyRead, none⟩ =
      .error (.conditionUnanswerable none) ∧
    (∃ o, judgeRule askedSession.codec askedSession.store signIn = .ok (o, .met)) ∧
    (∃ t judged, askedSession.satisfies [.ofSubject askedOwner] ∅ signIn =
      .ok (t, judged, false)) := by
  refine ⟨fun met hmet => ?_, fun _ _ => rfl, rfl, ⟨_, rfl⟩, ⟨_, _, rfl⟩⟩
  unfold partlyRead Rule.holds Rule.holdsCount Rule.holds
  rw [hmet, if_pos rfl, decide_eq_true_eq]
  exact Nat.le_add_right 1 _

end HyperscaleVm.Kernel

import HyperscaleVm.Guests.Account

/-!
# Recovery and freezing over whole histories
-/

namespace HyperscaleVm.Guests
open Effects (Claim RuleBytes StoredRule)
open Library List Option

def Method.answersProposal : Method → Bool
  | .amend _ _ _ | .propose _ _ | .freeze _ _ | .promote _ | .cancel _ | .veto _ => true
  | .value _ | .securify _ _ _ _ _ | .rotate _ _ => false

def Method.Files : Method → Replacement → Prop
  | .amend recovery vetoing delayMs, .roles recovery' vetoing' delayMs' =>
    recovery' = recovery ∧ vetoing' = vetoing ∧ delayMs' = delayMs
  | .propose primary confirmation, .factors primary' confirmation' _ =>
    primary' = primary ∧ confirmation' = confirmation
  | .freeze primary confirmation, .factors primary' confirmation' _ =>
    primary' = primary ∧ confirmation' = confirmation
  | _, _ => False

namespace Account

variable {self : Address} {a a' : Account} {history : List Call} {party : Party} {clockMs : ℕ}
  {method : Method}

/-- The history filed the proposal, under the delay in force then, and nothing after the
filing answered it. -/
structure FiledBy (holder : Address) (history : List Call) (proposal : Proposal)
    (earlier : List Call) (filing : Call) (later : List Call) (before : Account) : Prop where
  history_eq : history = earlier ++ filing :: later
  ran : Account.new.run holder earlier = .ok before
  files : filing.method.Files proposal.replaces
  effective : proposal.effectiveAtMs = saturated (filing.clockMs + before.delayMs)
  unanswered : ∀ call ∈ later, call.method.answersProposal = false

def Filed (self : Address) (history : List Call) (proposal : Proposal) : Prop :=
  ∃ earlier filing later before, FiledBy self history proposal earlier filing later before

variable {proposal : Proposal}

theorem Filed.after {call : Call} (h : Filed self history proposal)
    (hcall : call.method.answersProposal = false) : Filed self (history ++ [call]) proposal := by
  obtain ⟨earlier, filing, later, before, hfiled⟩ := h
  refine ⟨earlier, filing, later ++ [call], before, ?_, hfiled.ran, hfiled.files,
    hfiled.effective, ?_⟩
  · rw [hfiled.history_eq, append_assoc, cons_append]
  · intro later' hlater
    rcases mem_append.mp hlater with hlater | hlast
    · exact hfiled.unanswered later' hlater
    · rw [mem_singleton.mp hlast]
      exact hcall

theorem filed_last (hrun : Account.new.run self history = .ok a) (call : Call)
    (replaces : Replacement) (hfiles : call.method.Files replaces)
    (h : (a.filed call.clockMs replaces).proposal = some proposal) :
    Filed self (history ++ [call]) proposal := by
  cases h
  exact ⟨history, call, [], a, rfl, hrun, hfiles, rfl, fun _ h => by cases h⟩

theorem waiting_was_filed (hrun : Account.new.run self history = .ok a)
    (h : a.proposal = some proposal) : Filed self history proposal := by
  refine run_keeps (fun history a => ∀ proposal, a.proposal = some proposal →
    Filed self history proposal) (fun _ h => by cases h) ?_ hrun proposal h
  clear hrun h
  intro history a call a' hrun hfiled hdoes proposal h
  obtain ⟨party, clockMs, method⟩ := call
  cases hdoes with
  | value | rotate => exact (hfiled proposal h).after rfl
  | securify primary confirmation recovery veto delayMs hgate hauth =>
    exact (hfiled proposal h).after rfl
  | amend recovery veto delayMs authority hgate hauth hwaits =>
    exact filed_last hrun ⟨party, clockMs, .amend recovery veto delayMs⟩
      (.roles recovery veto delayMs) ⟨rfl, rfl, rfl⟩ h
  | propose primary confirmation authority hgate hauth =>
    exact filed_last hrun ⟨party, clockMs, .propose primary confirmation⟩
      (.factors primary confirmation a.displaced) ⟨rfl, rfl⟩ h
  | freeze primary confirmation authority hgate hauth =>
    exact filed_last hrun ⟨party, clockMs, .freeze primary confirmation⟩
      (.factors primary confirmation (some (a.displaced.getD authority.primary))) ⟨rfl, rfl⟩ h
  | enactFactors | enactRoles | cancel | veto => cases h

def roles (a : Account) : Option RuleBytes × Option RuleBytes × ℕ := (a.recovery, a.veto, a.delayMs)

theorem Does.roles_kept (hdoes : Does self a party clockMs method a') (hauth : a.auth.isSome) :
    a'.roles = a.roles ∨ ∃ serial effectiveAtMs recovery veto delayMs, method = .promote serial ∧
      a.proposal = some ⟨serial, effectiveAtMs, .roles recovery veto delayMs⟩ ∧
      a'.roles = (some recovery, some veto, delayMs) := by
  cases hdoes with
  | securify primary confirmation recovery veto delayMs hgate habsent =>
    rw [habsent] at hauth
    cases hauth
  | enactRoles serial effective recovery veto delayMs hwaits hclock =>
    exact .inr ⟨serial, effective, recovery, veto, delayMs, rfl, hwaits, rfl⟩
  | _ => exact .inl rfl

theorem Does.auth_kept (hdoes : Does self a party clockMs method a') (hauth : a.auth.isSome) :
    a'.auth.isSome := by
  have hback : a.retracted.auth.isSome := by
    unfold retracted
    cases hdisplaced : a.displaced with
    | none => exact hauth
    | some primary => simpa using hauth
  cases hdoes with
  | value | amend | propose | enactRoles => exact hauth
  | cancel | veto => exact hback
  | _ => rfl

theorem securified_has_auth (hrun : Account.new.run self history = .ok a)
    (hsecurify : ∃ call ∈ history, ∃ primary confirmation recovery veto delayMs,
      call.method = .securify primary confirmation recovery veto delayMs) : a.auth.isSome := by
  refine run_keeps
    (fun history a => (∃ call ∈ history, ∃ primary confirmation recovery veto delayMs,
    call.method = .securify primary confirmation recovery veto delayMs) → a.auth.isSome) ?_ ?_
    hrun hsecurify
  · rintro ⟨call, hcall, -⟩
    cases hcall
  · clear hrun hsecurify
    rintro history a call a' - hauth hdoes ⟨securify, hmem, hmethod⟩
    rcases mem_append.mp hmem with hmem | hlast
    · exact hdoes.auth_kept (hauth ⟨securify, hmem, hmethod⟩)
    obtain ⟨primary, confirmation, recovery, veto, delayMs, hmethod⟩ := hmethod
    rw [mem_singleton.mp hlast] at hmethod
    rw [hmethod] at hdoes
    cases hdoes
    rfl

theorem governs_stored {cell : Option RuleBytes} (hcell : cell.isSome)
    (hgate : a.governs self cell party = true) : storedAdmits cell party = true := by
  cases cell with
  | none => cases hcell
  | some rule => simpa [governs] using hgate

theorem Does.factors_wait (hdoes : Does self a party clockMs method a')
    (hstanding : Standing a) (hwaits : a.proposal = some proposal)
    (hfactors : a.waitsOnFactors = true) (hrecovery : storedAdmits a.recovery party = false)
    (hveto : storedAdmits a.veto party = false) :
    a'.proposal = some proposal ∧ a'.recovery = a.recovery ∧ a'.veto = a.veto ∨
      method = .promote proposal.serial ∧ proposal.effectiveAtMs ≤ clockMs := by
  have hauth := hstanding.securified (by rw [hwaits]; rfl)
  obtain ⟨hrecovers, hvetoes⟩ := hstanding.roles hauth
  have hunrecovered : ¬ a.governs self a.recovery party = true := fun hgate => by
    rw [governs_stored hrecovers hgate] at hrecovery
    cases hrecovery
  cases hdoes with
  | value | rotate => exact .inl ⟨hwaits, rfl, rfl⟩
  | securify primary confirmation recovery veto delayMs hgate habsent =>
    rw [habsent] at hauth
    cases hauth
  | amend recovery veto delayMs authority hgate hauth hamends =>
    rw [hamends] at hfactors
    cases hfactors
  | propose primary confirmation authority hgate | freeze primary confirmation authority hgate =>
    exact absurd hgate hunrecovered
  | enactFactors serial effective primary confirmation frozen authority hproposal hclock
  | enactRoles serial effective recovery veto delayMs hproposal hclock =>
    cases hwaits.symm.trans hproposal
    exact .inr ⟨rfl, hclock⟩
  | cancel own hgate => exact absurd hgate hunrecovered
  | veto own hgate =>
    rw [governs_stored hvetoes hgate] at hveto
    cases hveto

theorem factors_wait_out {calls : List Call} {final : Account}
    (hstanding : Standing a) (hwaits : a.proposal = some proposal)
    (hfactors : a.waitsOnFactors = true)
    (hstrangers : ∀ call ∈ calls, storedAdmits a.recovery call.party = false ∧
      storedAdmits a.veto call.party = false) (hrun : a.run self calls = .ok final) :
    final.proposal = some proposal ∨ ∃ earlier call later mid,
      calls = earlier ++ call :: later ∧ a.run self earlier = .ok mid ∧
      mid.proposal = some proposal ∧ call.method = .promote proposal.serial ∧
      proposal.effectiveAtMs ≤ call.clockMs := by
  induction calls generalizing a with
  | nil =>
    cases hrun
    exact .inl hwaits
  | cons call calls ih =>
    obtain ⟨mid, hstep, hrest⟩ := run_cons.mp hrun
    have hdoes := step_does hstep
    obtain ⟨hrecovery, hveto⟩ := hstrangers call mem_cons_self
    rcases hdoes.factors_wait hstanding hwaits hfactors hrecovery hveto with
      ⟨hkept, hsame, hsame'⟩ | ⟨hmethod, hclock⟩
    · have hstill : mid.waitsOnFactors = true := by
        unfold waitsOnFactors at hfactors ⊢
        rw [hkept, ← hwaits]
        exact hfactors
      have hstrangers' : ∀ call ∈ calls, storedAdmits mid.recovery call.party = false ∧
          storedAdmits mid.veto call.party = false := by
        rw [hsame, hsame']
        exact fun call hcall => hstrangers call (mem_cons_of_mem _ hcall)
      rcases ih (hstanding.does hdoes) hkept hstill hstrangers' hrest with
        hdone | ⟨earlier, promoting, later, mid', hcalls, hearlier, hmid, hpromotes⟩
      · exact .inl hdone
      · refine .inr ⟨call :: earlier, promoting, later, mid', ?_, ?_, hmid, hpromotes⟩
        · rw [hcalls, cons_append]
        · exact run_cons.mpr ⟨mid, hstep, hearlier⟩
    · exact .inr ⟨[], call, calls, a, rfl, run_nil, hwaits, hmethod, hclock⟩

end Account

open Account in
/-- Recovery is neither stalled nor hurried: what is enacted was filed and waited its delay
unanswered, nothing else changes the role cells, and a waiting replacement of the factors is
answered by the two roles alone. -/
theorem recovery_keeps_its_clock {self : Address} {history : List Call} {a : Account}
    (hrun : Account.new.run self history = .ok a) :
    (∀ call serial a', call.method = .promote serial → a.step self call = .ok a' →
      ∃ proposal earlier filing later before,
        FiledBy self history proposal earlier filing later before ∧
        saturated (filing.clockMs + before.delayMs) ≤ call.clockMs ∧ match proposal.replaces with
        | .factors primary confirmation _ => a' = { a with
            auth := some ⟨primary.intoBytes, confirmation.intoBytes⟩
            proposal := none }
        | .roles recovery veto delayMs => a' = { a with
            recovery := some recovery
            veto := some veto
            delayMs := delayMs
            proposal := none }) ∧
    ((∃ call ∈ history, ∃ primary confirmation recovery veto delayMs,
        call.method = .securify primary confirmation recovery veto delayMs) →
      ∀ call a', a.step self call = .ok a' → a'.roles ≠ a.roles →
        ∃ serial, call.method = .promote serial) ∧
    ∀ proposal, a.proposal = some proposal → a.waitsOnFactors = true →
      ∀ calls final, (∀ call ∈ calls, storedAdmits a.recovery call.party = false ∧
          storedAdmits a.veto call.party = false) →
        a.run self calls = .ok final →
        final.proposal = some proposal ∨ ∃ earlier call later mid,
          calls = earlier ++ call :: later ∧ a.run self earlier = .ok mid ∧
          mid.proposal = some proposal ∧ call.method = .promote proposal.serial ∧
          proposal.effectiveAtMs ≤ call.clockMs := by
  refine ⟨?_, ?_, ?_⟩
  · intro call serial a' hmethod hstep
    rw [step, hmethod] at hstep
    obtain ⟨proposal, hwaits, -, hclock, henacted⟩ := promote_ok.mp hstep
    obtain ⟨earlier, filing, later, before, hfiled⟩ := waiting_was_filed hrun hwaits
    refine ⟨proposal, earlier, filing, later, before, hfiled, hfiled.effective ▸ hclock, ?_⟩
    cases hreplaces : proposal.replaces with
    | factors primary confirmation frozen =>
      rw [hreplaces] at henacted
      exact henacted.2
    | roles recovery veto delayMs =>
      rw [hreplaces] at henacted
      exact henacted
  · intro hsecurify call a' hstep hchanged
    rcases (step_does hstep).roles_kept (securified_has_auth hrun hsecurify) with
      hkept | ⟨serial, -, -, -, -, hmethod, -⟩
    · exact absurd hkept hchanged
    · exact ⟨serial, hmethod⟩
  · intro proposal hwaits hfactors calls final hstrangers hcalls
    exact factors_wait_out (run_standing hrun) hwaits hfactors hstrangers hcalls

def holder : Address := ⟨1, .principal⟩

def phone : Address := ⟨2, .principal⟩

def guardian : Address := ⟨3, .principal⟩

def naming (who : Address) : RuleBytes := .encoded (.claim (.ofSubject who))

def phoneRule : PrincipalRule := ⟨naming phone, by decide⟩

def anyone : PrincipalRule := ⟨.encoded .always, by decide⟩

def guardianRule : PrincipalRule := ⟨naming guardian, by decide⟩

def callBy (who : Address) (clockMs : ℕ) (method : Method) : Call :=
  ⟨⟨[.ofSubject who], [.ofSubject who, .ofSubject holder]⟩, clockMs, method⟩

def securing : Call :=
  callBy holder 0 (.securify phoneRule anyone (naming guardian) (naming guardian) 5)

theorem guardian_recovers :
    ∃ a a', Account.new.run holder [securing, callBy guardian 10 (.propose guardianRule anyone)] =
        .ok a ∧ a.step holder (callBy phone 15 (.promote 1)) = .ok a' ∧
      (∃ proposal earlier filing later before, Account.FiledBy holder
        [securing, callBy guardian 10 (.propose guardianRule anyone)] proposal earlier filing later
        before) ∧
      ∀ final, a.run holder [callBy phone 14 (.rotate phoneRule phoneRule)] = .ok final →
        final.proposal = a.proposal := by
  obtain ⟨a, hrun, hrest⟩ := passes_iff.mp (show passes (Account.new.run holder
    [securing, callBy guardian 10 (.propose guardianRule anyone)]) (fun a =>
      a.proposal.isSome && a.waitsOnFactors &&
      !Account.storedAdmits a.recovery (callBy phone 14 (.value .deposit)).party &&
      !Account.storedAdmits a.veto (callBy phone 14 (.value .deposit)).party &&
      passes (a.step holder (callBy phone 15 (.promote 1))) fun _ => true) = true by decide)
  simp only [Bool.and_eq_true, Bool.not_eq_true'] at hrest
  obtain ⟨⟨⟨⟨hsome, hfactors⟩, hrecovery⟩, hveto⟩, hpromotes⟩ := hrest
  obtain ⟨a', hstep, -⟩ := passes_iff.mp hpromotes
  obtain ⟨henacted, -, hstrangers⟩ := recovery_keeps_its_clock hrun
  obtain ⟨proposal, earlier, filing, later, before, hfiled, -⟩ := henacted _ 1 a' rfl hstep
  refine ⟨a, a', hrun, hstep, ⟨proposal, earlier, filing, later, before, hfiled⟩,
    fun final hfinal => ?_⟩
  obtain ⟨waiting, hwaits⟩ := isSome_iff_exists.mp hsome
  have hparty : ∀ call ∈ [callBy phone 14 (.rotate phoneRule phoneRule)],
      Account.storedAdmits a.recovery call.party = false ∧
        Account.storedAdmits a.veto call.party = false := by
    intro call hcall
    rw [mem_singleton.mp hcall]
    exact ⟨hrecovery, hveto⟩
  rcases hstrangers waiting hwaits hfactors _ final hparty hfinal with
    hkept | ⟨earlier, call, later, mid, hcalls, -, -, hmethod, -⟩
  · rw [hkept, hwaits]
  have hmem : call ∈ [callBy phone 14 (.rotate phoneRule phoneRule)] := by
    rw [hcalls]
    simp
  rw [mem_singleton.mp hmem] at hmethod
  cases hmethod

namespace Account

variable {self : Address} {a a' : Account} {history : List Call} {party : Party} {clockMs : ℕ}
  {method : Method}

def storesPrimary (a : Account) : Method → Bool
  | .securify _ _ _ _ _ | .rotate _ _ => true
  | .promote _ => a.waitsOnFactors
  | .cancel _ | .veto _ => a.displaced.isSome
  | .value _ | .amend _ _ _ | .propose _ _ | .freeze _ _ => false

def chainAfter (a : Account) (chain : Option Authority) (method : Method) : Option Authority :=
  match method with
  | .freeze _ _ => chain.or a.auth
  | method => if a.storesPrimary method then none else chain

def runFrozen (self : Address) (a : Account) (chain : Option Authority) :
    List Call → Except Refusal (Account × Option Authority)
  | [] => .ok (a, chain)
  | call :: calls => do
    let next ← a.step self call
    runFrozen self next (a.chainAfter chain call.method) calls

/-- A frozen account has the record of its freeze, and the displaced primary in the proposal
that waits; one that is not has none displaced. -/
def Frozen (a : Account) : Option Authority → Prop
  | some before => a.auth = some ⟨nobody, before.confirmation⟩ ∧
      a.waitsOnFactors = true ∧ a.displaced = some before.primary
  | none => a.displaced = none

theorem Frozen.unsigned {before : Authority} (h : Frozen a (some before)) :
    a.signedIn self party = false := by
  obtain ⟨hauth, -, -⟩ := h
  simp [signedIn, authCellAdmits, hauth, nobody_admits_none]

variable {chain : Option Authority}

theorem Frozen.retracted (h : Frozen a chain) :
    Frozen a.retracted (if a.displaced.isSome then none else chain) := by
  cases chain with
  | none =>
    rw [ite_self]
    rfl
  | some before =>
    rw [h.2.2, isSome_some, if_pos rfl]
    rfl

theorem Frozen.does (hfrozen : Frozen a chain)
    (hdoes : Does self a party clockMs method a') : Frozen a' (a.chainAfter chain method) := by
  cases hdoes with
  | value => exact hfrozen
  | securify primary confirmation recovery veto delayMs hgate hauth
  | rotate primary confirmation authority hgate hauth =>
    cases chain with
    | none => exact hfrozen
    | some before =>
      rw [hfrozen.unsigned] at hgate
      cases hgate
  | amend recovery veto delayMs authority hgate hauth hwaits =>
    cases chain with
    | none => rfl
    | some before =>
      rw [hfrozen.unsigned] at hgate
      cases hgate
  | propose primary confirmation authority hgate hauth =>
    cases chain with
    | none => exact hfrozen
    | some before => exact ⟨hfrozen.1, rfl, hfrozen.2.2⟩
  | freeze primary confirmation authority hgate hauth =>
    cases chain with
    | none =>
      -- the first of its chain displaces the primary in force
      have hnone : a.displaced = none := hfrozen
      simp only [chainAfter, none_or, hauth]
      refine ⟨rfl, rfl, ?_⟩
      rw [hnone, getD_none]
      rfl
    | some before =>
      obtain ⟨hauth', -, hdisplaced⟩ := hfrozen
      cases hauth.symm.trans hauth'
      refine ⟨rfl, rfl, ?_⟩
      rw [hdisplaced, getD_some]
      rfl
  | enactFactors serial effective primary confirmation frozen authority hproposal hclock hauth =>
    have hwaits : a.waitsOnFactors = true := by simp [waitsOnFactors, hproposal]
    simp only [chainAfter, storesPrimary, hwaits, if_true]
    rfl
  | enactRoles serial effective recovery veto delayMs hproposal hclock =>
    have hwaits : a.waitsOnFactors = false := by simp [waitsOnFactors, hproposal]
    cases chain with
    | none =>
      simp only [chainAfter, storesPrimary, hwaits]
      rfl
    | some before =>
      rw [hfrozen.2.1] at hwaits
      cases hwaits
  | cancel | veto => exact hfrozen.retracted

theorem runFrozen_run (calls : List Call) :
    (a.runFrozen self chain calls).map Prod.fst = a.run self calls := by
  induction calls generalizing a chain with
  | nil => rfl
  | cons call calls ih =>
    rw [runFrozen, run, foldlM_cons]
    cases a.step self call with
    | error refusal => rfl
    | ok next => exact ih

theorem runFrozen_frozen {calls : List Call}
    {final : Account × Option Authority} (hfrozen : Frozen a chain)
    (h : a.runFrozen self chain calls = .ok final) : Frozen final.1 final.2 := by
  induction calls generalizing a chain with
  | nil =>
    cases h
    exact hfrozen
  | cons call calls ih =>
    obtain ⟨next, hstep, hrest⟩ := bind_ok.mp h
    exact ih (hfrozen.does (step_does hstep)) hrest

theorem Frozen.given_back {before : Authority} (h : Frozen a (some before)) :
    a.retracted.auth = some before := by
  obtain ⟨hauth, -, hdisplaced⟩ := h
  simp [Account.retracted, hauth, hdisplaced]

end Account

open Account in
/-- Where a freeze stored the primary last, a proposal carrying the displaced one waits: a
verdict gives back the record in force before the first freeze of the chain, and promoting
stores the factors that proposal names. Each of the three is open to whoever its gate
admits. -/
theorem frozen_account_has_its_way_back {self : Address} {history : List Call} {a : Account}
    {before : Authority} (hrun : Account.new.runFrozen self none history = .ok (a, some before)) :
    ∃ proposal primary confirmation, a.proposal = some proposal ∧
      proposal.replaces = .factors primary confirmation (some before.primary) ∧
      a.auth = some ⟨nobody, before.confirmation⟩ ∧
      (∀ call serial a', call.method = .cancel serial ∨ call.method = .veto serial →
        a.step self call = .ok a' → a'.auth = some before ∧ a'.proposal = none) ∧
      (∀ call serial a', call.method = .promote serial → a.step self call = .ok a' →
        a'.auth = some ⟨primary.intoBytes, confirmation.intoBytes⟩ ∧ a'.proposal = none) ∧
      (∀ call, call.method = .cancel proposal.serial →
        storedAdmits a.recovery call.party = true → ∃ a', a.step self call = .ok a') ∧
      (∀ call, call.method = .veto proposal.serial →
        storedAdmits a.veto call.party = true → ∃ a', a.step self call = .ok a') ∧
      ∀ call, call.method = .promote proposal.serial → proposal.effectiveAtMs ≤ call.clockMs →
        ∃ a', a.step self call = .ok a' := by
  have hnew : Frozen Account.new none := rfl
  have hfrozen : Frozen a (some before) := runFrozen_frozen hnew hrun
  have hgiven := hfrozen.given_back
  obtain ⟨hauth, hwaits, hdisplaced⟩ := hfrozen
  obtain ⟨serial, effective, primary, confirmation, frozen, hproposal⟩ :
      ∃ serial effective primary confirmation frozen,
        a.proposal = some ⟨serial, effective, .factors primary confirmation frozen⟩ := by
    unfold waitsOnFactors at hwaits
    split at hwaits
    · rename_i hproposal
      exact ⟨_, _, _, _, _, hproposal⟩
    · cases hwaits
    · cases hwaits
  have hdisplaced' : frozen = some before.primary := by
    simpa [displaced, hproposal] using hdisplaced
  subst hdisplaced'
  have hverdict : ∃ a', a.retract serial = .ok a' :=
    ⟨_, retract_ok.mpr ⟨⟨_, hproposal, rfl⟩, fun _ => by rw [hauth]; rfl, rfl⟩⟩
  refine ⟨_, primary, confirmation, hproposal, rfl, hauth, ?_, ?_, ?_, ?_, ?_⟩
  · intro call named a' hmethod hstep
    have hretracted : a' = a.retracted := by
      have hdoes := step_does hstep
      rcases hmethod with hmethod | hmethod
      all_goals
        rw [hmethod] at hdoes
        cases hdoes
        rfl
    rw [hretracted]
    exact ⟨hgiven, rfl⟩
  · intro call named a' hmethod hstep
    rw [step, hmethod] at hstep
    obtain ⟨proposal, hnamed, -, -, henacted⟩ := promote_ok.mp hstep
    cases hproposal.symm.trans hnamed
    rw [henacted.2]
    exact ⟨rfl, rfl⟩
  rotate_right
  · intro call hmethod hclock
    refine ⟨{ a with
      auth := some ⟨primary.intoBytes, confirmation.intoBytes⟩
      proposal := none }, ?_⟩
    rw [step, hmethod]
    exact promote_ok.mpr ⟨_, hproposal, rfl, hclock, ⟨_, hauth⟩, rfl⟩
  all_goals
    intro call hmethod hgate
    obtain ⟨a', hretract⟩ := hverdict
    refine ⟨a', ?_⟩
    rw [step, hmethod]
    exact seq_ok.mpr ⟨require_ok.mpr (by simp [governs, hgate]), hretract⟩

/-- Two freezes and a proposal between them, then a verdict. -/
theorem refrozen_account_comes_back : ∃ a a', Account.new.runFrozen holder none [securing,
        callBy guardian 10 (.freeze guardianRule anyone),
        callBy guardian 11 (.propose anyone guardianRule),
        callBy guardian 12 (.freeze guardianRule guardianRule)] =
          .ok (a, some ⟨naming phone, .encoded .always⟩) ∧
      a.step holder (callBy guardian 13 (.veto 3)) = .ok a' ∧
      a'.auth = some ⟨naming phone, .encoded .always⟩ := by
  obtain ⟨⟨a, chain⟩, hrun, hrest⟩ := passes_iff.mp (show passes
    (Account.new.runFrozen holder none [securing,
      callBy guardian 10 (.freeze guardianRule anyone),
      callBy guardian 11 (.propose anyone guardianRule),
      callBy guardian 12 (.freeze guardianRule guardianRule)]) (fun p =>
        decide (p.2 = some ⟨naming phone, .encoded .always⟩) &&
        passes (p.1.step holder (callBy guardian 13 (.veto 3))) fun _ => true) = true by
      decide)
  obtain ⟨hchain, hverdict⟩ := Bool.and_eq_true_iff.mp hrest
  cases of_decide_eq_true hchain
  obtain ⟨a', hstep, -⟩ := passes_iff.mp hverdict
  obtain ⟨proposal, primary, confirmation, -, -, -, hgiven, -⟩ :=
    frozen_account_has_its_way_back hrun
  exact ⟨a, a', hrun, hstep, (hgiven _ 3 a' (.inr rfl) hstep).1⟩

end HyperscaleVm.Guests

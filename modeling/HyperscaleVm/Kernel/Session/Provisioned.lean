import HyperscaleVm.Effects.Admission.Movement
import HyperscaleVm.Effects.Admission.Reaches
import HyperscaleVm.Kernel.Executor.Screen
import HyperscaleVm.Kernel.Session.Balance

/-!
# The accesses the protocol adds (`admission/inject.rs`, `session/materialize.rs`)
-/

namespace HyperscaleVm
open List Option
open Std (ExtTreeMap ExtTreeSet)

namespace EffectSet

def SameReserves (s f : EffectSet) : Prop :=
  ∀ target, ∃ amount, ReservesOnly (s.modesOf target) amount ∧
    ReservesOnly (f.modesOf target) amount

theorem sameReserves_new : SameReserves .new .new := by
  intro target
  have hnone : ReservesOnly (EffectSet.new.modesOf target) none := by
    intro n
    simp [modesOf, EffectSet.new]
  exact ⟨none, hnone, hnone⟩

variable {s f : EffectSet} {effect : Effect} {width : ℕ}

theorem insertBounded_of_reserved {out : EffectSet × Bool}
    (hsame : reserved (s.modesOf effect.target) = reserved (f.modesOf effect.target))
    (h : s.insertBounded effect width = some out) (width' : ℕ) :
    ∃ f' moved, f.insertBounded effect width' = some (f', moved) := by
  cases hinsert : f.insertBounded effect width' with
  | some out' => exact ⟨out'.1, out'.2, rfl⟩
  | none =>
    -- only a reservation past an amount is refused, and it is on both sides
    unfold modesOf at hsame
    unfold insertBounded at h hinsert
    dsimp only at h hinsert
    rw [hsame] at h
    split at hinsert
    · rename_i amount prior hmode hprior
      split at hinsert
      · cases hinsert
      · rename_i hpast
        simp only [hmode, hprior, if_neg hpast] at h
        cases h
    · cases hinsert

variable {s' : EffectSet} {moved : Bool}

theorem SameReserves.keep
    (h : SameReserves s f) (hinsert : s.insertBounded effect width = some (s', moved))
    (width' : ℕ) :
    ∃ f' moved', f.insertBounded effect width' = some (f', moved') ∧ SameReserves s' f' := by
  obtain ⟨amount, hs, hf⟩ := h effect.target
  obtain ⟨f', moved', hf'⟩ :=
    insertBounded_of_reserved (hs.reserved_eq.trans hf.reserved_eq.symm) hinsert width'
  refine ⟨f', moved', hf', fun target => ?_⟩
  obtain ⟨prior, hs, hf⟩ := h target
  exact ⟨_, reservesOnly_insertBounded hinsert hs, reservesOnly_insertBounded hf' hf⟩

theorem SameReserves.add
    (h : SameReserves s f) (hinsert : s.insertBounded effect width = some (s', moved))
    (hmode : ∀ amount, effect.mode ≠ .reserve amount) : SameReserves s' f := by
  intro target
  obtain ⟨prior, hs, hf⟩ := h target
  have hs' := reservesOnly_insertBounded hinsert hs
  have hsum : (if effect.target = target then reserveSum prior effect.mode else prior) = prior := by
    split
    · cases hkind : effect.mode with
      | reserve amount => exact absurd hkind (hmode amount)
      | read | write | delta => rfl
    · rfl
  rw [hsum] at hs'
  exact ⟨prior, hs', hf⟩

def amountOf : Mode → Option ℕ
  | .reserve amount => some amount
  | _ => none

theorem amountOf_eq_some {mode : Mode} {n : ℕ} : amountOf mode = some n ↔ mode = .reserve n := by
  cases mode <;> simp [amountOf]

theorem ReservesOnly.filterMap_toList {modes : ExtTreeSet Mode} {amount : Option ℕ}
    (h : ReservesOnly modes amount) : modes.toList.filterMap amountOf = amount.toList := by
  have hmem : ∀ n, n ∈ modes.toList.filterMap amountOf ↔ amount = some n := by
    intro n
    rw [mem_filterMap, ← h n]
    constructor
    · rintro ⟨mode, hmode, hn⟩
      rw [amountOf_eq_some] at hn
      subst hn
      exact ExtTreeSet.mem_toList.mp hmode
    · intro hmode
      exact ⟨_, ExtTreeSet.mem_toList.mpr hmode, rfl⟩
  have hdistinct : modes.toList.Nodup :=
    ExtTreeSet.distinct_toList.imp fun hne heq => hne (Std.compare_eq_iff_eq.mpr heq)
  have hnodup : (modes.toList.filterMap amountOf).Nodup := by
    refine hdistinct.filterMap fun mode mode' n hn hn' => ?_
    rw [Option.mem_def, amountOf_eq_some] at hn hn'
    rw [hn, hn']
  cases amount with
  | none =>
    rw [toList_none, eq_nil_iff_forall_not_mem]
    intro n hn
    cases (hmem n).mp hn
  | some n =>
    have hperm : (modes.toList.filterMap amountOf).Perm [n] := by
      refine (perm_ext_iff_of_nodup hnodup (nodup_singleton n)).mpr fun m => ?_
      rw [hmem m, some.injEq, mem_singleton, eq_comm]
    exact perm_singleton.mp hperm

end EffectSet

namespace Kernel
open Effects Library

def reservationOf (target : EffectTarget) (declared : Declared) : Option (SubstateKey × ℕ) :=
  match target with
  | .point key => (EffectSet.reserved declared.modes).map fun amount => (key, amount)
  | _ => none

variable {set : EffectSet}

theorem declaredReservations_eq
    (h : ∀ target, ∃ amount, EffectSet.ReservesOnly (set.modesOf target) amount) :
    declaredReservations set = (set.byTarget.filterMap reservationOf).toList.map Prod.snd := by
  rw [ExtTreeMap.toList_filterMap, map_filterMap]
  unfold declaredReservations EffectSet.iter
  rw [filterMap_flatMap, filterMap_eq_flatMap_toList]
  refine flatMap_congr fun p hp => ?_
  obtain ⟨target, declared⟩ := p
  rw [ExtTreeMap.mem_toList_iff_getElem?_eq_some] at hp
  obtain ⟨amount, honly⟩ := h target
  simp only [EffectSet.modesOf, hp, getD_some] at honly
  dsimp only
  rw [filterMap_map]
  cases target with
  | point key =>
    have hfilter : (declared.modes.toList.filterMap fun mode =>
        (EffectSet.amountOf mode).map fun n => (key, n)) =
          (amount.map fun n => (key, n)).toList := by
      rw [← map_filterMap, honly.filterMap_toList]
      cases amount <;> rfl
    have hreserved : reservationOf (.point key) declared = amount.map fun n => (key, n) := by
      unfold reservationOf
      rw [honly.reserved_eq]
    rw [hreserved, Option.map_map]
    refine Eq.trans (List.filterMap_congr fun mode _ => ?_) (hfilter.trans ?_)
    · cases mode <;> rfl
    · cases amount <;> rfl
  | entry | range => exact filterMap_eq_nil_iff.mpr fun mode _ => rfl

variable {s f : EffectSet}

theorem declaredReservations_of_same (h : s.SameReserves f) :
    declaredReservations s = declaredReservations f := by
  rw [declaredReservations_eq fun target => (h target).imp fun _ hboth => hboth.1,
    declaredReservations_eq fun target => (h target).imp fun _ hboth => hboth.2]
  congr 2
  refine ExtTreeMap.ext_getElem? fun target => ?_
  rw [ExtTreeMap.getElem?_filterMap', ExtTreeMap.getElem?_filterMap']
  cases target with
  | point key =>
    obtain ⟨amount, hs, hf⟩ := h (.point key)
    have hreserved (set : EffectSet)
      (honly : EffectSet.ReservesOnly (set.modesOf (.point key)) amount) :
        ((set.byTarget[EffectTarget.point key]?).bind fun declared =>
          reservationOf (.point key) declared) =
          amount.map fun n => (key, n) := by
      unfold EffectSet.modesOf at honly
      cases hfound : set.byTarget[EffectTarget.point key]? with
      | none =>
        rw [hfound] at honly
        cases amount with
        | none => rfl
        | some n =>
          have hmem := (honly n).mpr rfl
          simp at hmem
      | some declared =>
        rw [hfound] at honly
        rw [bind_some]
        unfold reservationOf
        rw [← honly.reserved_eq]
        rfl
    rw [hreserved s hs, hreserved f hf]
  | entry | range => simp [reservationOf]

def Materializes (store : OverlayStore) (declaration : Declaration) (tx : TxHash) (env : EnvInputs)
    (codec : Codec) (judges : OwnerSet) : Prop :=
  ∃ s, materializeWithin store declaration tx env codec judges = .ok s

def Judged (store : OverlayStore) (reservations : List (SubstateKey × ℕ))
    (conditions : List Condition) (tx : TxHash) (codec : Codec) (judges : OwnerSet) : Prop :=
  ∃ requests looked held verdicts,
    reservations.foldlM (adopt store.clearLog tx judges) [] = .ok requests ∧
    conditions.foldlM (judgeCondition codec judges) store.clearLog = .ok looked ∧
    judgeAndHold looked requests = (held, .ok verdicts) ∧ firstInfeasible requests verdicts = none

/-- Every access has its capability, and no two disagree about what a leaf holds. -/
structure Tables (ordered : List DeclaredAccess) : Prop where
  handed : ∀ access ∈ ordered, ∀ width,
    ∃ held, capabilityFor access.effect access.holds.isSome width = .ok held
  agree : ∀ a ∈ ordered, ∀ b ∈ ordered,
    contentsOf a.effect.target = contentsOf b.effect.target → a.holds = b.holds

section

variable {store : OverlayStore} {tx : TxHash} {env : EnvInputs} {codec : Codec} {judges : OwnerSet}

theorem capabilityFor_width {effect : Effect} {denominated : Bool} {width : ℕ} {held : Capability}
    (h : capabilityFor effect denominated width = .ok held) (width' : ℕ) :
    ∃ held', capabilityFor effect denominated width' = .ok held' := by
  obtain ⟨target, mode⟩ := effect
  cases target with
  | point key => exact ⟨held, h⟩
  | entry | range =>
    cases mode with
    | read | write => exact ⟨_, rfl⟩
    | delta | reserve => cases h

variable {ordered : List DeclaredAccess} {set : EffectSet}
  {contents : List (Contents × Option ResourceAddr)}

theorem buildTable_handed {table : List Capability}
    (h : buildTable set contents ordered = .ok table) : ∀ access ∈ ordered, ∀ width,
      ∃ held, capabilityFor access.effect access.holds.isSome width = .ok held := by
  induction ordered generalizing contents table with
  | nil => simp
  | cons first rest ih =>
    unfold buildTable at h
    dsimp only at h
    split at h
    · cases h
    obtain ⟨held, hheld, table', htable, -⟩ := binds_ok.mp h
    intro access haccess width
    rcases mem_cons.mp haccess with rfl | haccess
    · exact capabilityFor_width hheld width
    · exact ih htable access haccess width

theorem buildTable_answers (htables : Tables ordered)
    (hcontents : ∀ a ∈ ordered, ∀ held, contents.lookup (contentsOf a.effect.target) = some held →
      held = a.holds) : ∃ table, buildTable set contents ordered = .ok table := by
  induction ordered generalizing contents with
  | nil => exact ⟨[], rfl⟩
  | cons first rest ih =>
    have hrest : Tables rest := ⟨fun a ha => htables.handed a (mem_cons_of_mem _ ha),
      fun a ha b hb => htables.agree a (mem_cons_of_mem _ ha) b (mem_cons_of_mem _ hb)⟩
    obtain ⟨held, hheld⟩ := htables.handed first mem_cons_self (set.widthOf first.effect.target)
    have hlater : ∀ a ∈ rest, ∀ held,
        ((contentsOf first.effect.target, first.holds) :: contents).lookup
          (contentsOf a.effect.target) =
          some held → held = a.holds := by
      intro a ha held hfound
      by_cases hsame : contentsOf a.effect.target = contentsOf first.effect.target
      · rw [hsame, lookup_cons_self] at hfound
        rw [← some.inj hfound]
        exact htables.agree first mem_cons_self a (mem_cons_of_mem _ ha) hsame.symm
      · have hne : (contentsOf a.effect.target == contentsOf first.effect.target) = false := by
          simpa using hsame
        rw [lookup_cons, hne] at hfound
        exact hcontents a (mem_cons_of_mem _ ha) held hfound
    obtain ⟨table, htable⟩ := ih hrest hlater
    have hmixed :
        ¬((contents.lookup (contentsOf first.effect.target)).any (· ≠ first.holds)) = true := by
      cases hfound : contents.lookup (contentsOf first.effect.target) with
      | none => simp
      | some stood => simp [hcontents first mem_cons_self stood hfound]
    refine ⟨held :: table, ?_⟩
    unfold buildTable
    dsimp only
    rw [if_neg hmixed, hheld]
    simp only [bind, Except.bind, htable]
    rfl

theorem buildTable_iff (set : EffectSet) :
    (∃ table, buildTable set [] ordered = .ok table) ↔ Tables ordered := by
  constructor
  · rintro ⟨table, h⟩
    exact ⟨buildTable_handed h, (buildTable_ok h).2.2.2⟩
  · exact fun h => buildTable_answers h fun a _ held hfound => by cases hfound

theorem materializes_iff {declaration : Declaration} :
    Materializes store declaration tx env codec judges ↔
      Tables declaration.ordered ∧ declaration.set.selfConflicting = none ∧
        Judged store (declaredReservations declaration.set) declaration.conditions tx
          codec judges := by
  constructor
  · rintro ⟨s, h⟩
    obtain ⟨requests, hrequests, table, htable, h⟩ := binds_ok.mp h
    split at h
    · cases h
    rename_i hconsistent
    obtain ⟨looked, hlooked, h⟩ := bind_ok.mp h
    split at h
    · cases h
    rename_i held verdicts hjudged
    split at h
    · cases h
    · rename_i hnone
      exact ⟨(buildTable_iff _).mp ⟨table, htable⟩, hconsistent, requests, looked, held, verdicts,
        hrequests, hlooked, hjudged, hnone⟩
  · rintro ⟨htables, hconsistent, requests, looked, held, verdicts, hrequests, hlooked,
      hjudged, hnone⟩
    obtain ⟨table, htable⟩ := (buildTable_iff declaration.set).mpr htables
    refine ⟨.opened held declaration table tx env codec judges, ?_⟩
    unfold materializeWithin
    simp only [hrequests, htable, hconsistent, hlooked, hjudged, hnone, bind, Except.bind, pure,
      Except.pure]

end

def OfProtocol (access : DeclaredAccess) : Prop :=
  access.holds = none ∧ (access.effect.mode = .read ∨ access.effect.mode = .write .both)

def keeping (declaration : Declaration) (keep : DeclaredAccess → Bool) : Option Declaration :=
  let kept := { declaration with ordered := declaration.ordered.filter keep }
  (foldedSet kept).map fun set => { kept with set := set }

theorem foldlM_filter {width : EffectTarget → ℕ} {keep : DeclaredAccess → Bool}
    {ordered : List DeclaredAccess} {s' : EffectSet} (hsame : s.SameReserves f)
    (hdropped : ∀ access ∈ ordered, keep access = false → OfProtocol access)
    (h : ordered.foldlM (fun (set : EffectSet) access =>
      (set.insertBounded access.effect (width access.effect.target)).map Prod.fst) s = some s') :
    ∃ f', (ordered.filter keep).foldlM (fun (set : EffectSet) access =>
      (set.insertBounded access.effect (width access.effect.target)).map Prod.fst) f = some f' ∧
      s'.SameReserves f' := by
  induction ordered generalizing s f with
  | nil =>
    obtain rfl := some.inj h
    exact ⟨f, rfl, hsame⟩
  | cons access rest ih =>
    rw [foldlM_cons] at h
    obtain ⟨next, hnext, h⟩ := bind_eq_some_iff.mp h
    obtain ⟨⟨next', moved⟩, hinsert, rfl⟩ := map_eq_some_iff.mp hnext
    have hrest := fun other hother => hdropped other (mem_cons_of_mem _ hother)
    cases hkeep : keep access with
    | true =>
      obtain ⟨f₁, moved', hf₁, hsame₁⟩ := hsame.keep hinsert (width access.effect.target)
      obtain ⟨f', hf', hsame'⟩ := ih hsame₁ hrest h
      refine ⟨f', ?_, hsame'⟩
      rw [filter_cons_of_pos hkeep, foldlM_cons, hf₁]
      exact hf'
    | false =>
      have hmode : ∀ amount, access.effect.mode ≠ .reserve amount := by
        intro amount hreserve
        rcases (hdropped access mem_cons_self hkeep).2 with hmode | hmode <;>
          cases hmode.symm.trans hreserve
      rw [filter_cons_of_neg (by simp [hkeep])]
      exact ih (hsame.add hinsert hmode) hrest h

theorem selfConflicting_eq_none
    (h : ∀ key kind, set.declares (.point key) .write → set.declares (.point key) kind →
      kind.conflictClass ≠ .movement) : set.selfConflicting = none := by
  unfold EffectSet.selfConflicting
  rw [findSome?_eq_none_iff]
  rintro ⟨target, declared⟩ hmem
  have hfound := ExtTreeMap.mem_toList_iff_getElem?_eq_some.mp hmem
  cases target with
  | point key =>
    dsimp only
    refine if_neg fun hboth => ?_
    rw [Bool.and_eq_true_iff, List.any_eq_true, List.any_eq_true] at hboth
    obtain ⟨⟨mode, hmode, hwrites⟩, mode', hmode', hmoves⟩ := hboth
    have hkind : mode.kind = .write := by
      cases hk : mode.kind <;> simp [hk, ModeKind.conflictClass] at hwrites ⊢
    exact h key mode'.kind ⟨declared, hfound, mode, ExtTreeSet.mem_toList.mp hmode, hkind⟩
      ⟨declared, hfound, mode', ExtTreeSet.mem_toList.mp hmode', rfl⟩ (by simpa using hmoves)
  | entry | range => rfl

def AddedApart (declaration : Declaration) (keep : DeclaredAccess → Bool) : Prop :=
  ∀ own ∈ declaration.ordered, keep own = false → ∀ access ∈ declaration.ordered,
    keep access = true →
    contentsOf own.effect.target = contentsOf access.effect.target → access.holds = none
deriving Decidable

section Beside

variable {store : OverlayStore} {tx : TxHash} {env : EnvInputs} {codec : Codec} {judges : OwnerSet}
  {declaration alone : Declaration} {keep : DeclaredAccess → Bool} {access : DeclaredAccess}

theorem OfProtocol.handed (h : OfProtocol access) (width : ℕ) :
    ∃ held, capabilityFor access.effect access.holds.isSome width = .ok held := by
  obtain ⟨⟨target, mode⟩, holds, reach, clause⟩ := access
  obtain ⟨rfl, hmode⟩ := h
  rcases hmode with rfl | rfl <;> cases target <;> exact ⟨_, rfl⟩

theorem OfProtocol.not_movement (h : OfProtocol access) :
    access.effect.mode.kind.conflictClass ≠ .movement := by
  rcases h.2 with hmode | hmode <;> rw [hmode] <;> decide

theorem holds_of_movement {key : SubstateKey} {width : ℕ} {held : Capability}
    (h : capabilityFor access.effect access.holds.isSome width = .ok held)
    (htarget : access.effect.target = .point key)
    (hmoves : access.effect.mode.kind.conflictClass = .movement) : access.holds ≠ none := by
  intro hnone
  rw [hnone] at h
  unfold capabilityFor at h
  simp only [htarget] at h
  cases hmode : access.effect.mode with
  | read | write =>
    rw [hmode] at hmoves
    cases hmoves
  | delta | reserve =>
    rw [hmode] at h
    cases h

variable (hown : ∀ access ∈ declaration.ordered, keep access = false → OfProtocol access)

include hown

theorem tables_iff_apart (hkept : Tables (declaration.ordered.filter keep)) :
    Tables declaration.ordered ↔ AddedApart declaration keep := by
  constructor
  · intro h own hin hadded access haccess _ hsame
    have hagrees := h.agree own hin access haccess hsame
    rw [← hagrees]
    exact (hown own hin hadded).1
  · intro h
    have hmem : ∀ access ∈ declaration.ordered, keep access = true →
        access ∈ declaration.ordered.filter keep := fun access hin hkeep =>
      mem_filter.mpr ⟨hin, hkeep⟩
    refine ⟨fun access hin width => ?_, fun a ha b hb hsame => ?_⟩
    · cases hkeep : keep access with
      | true => exact hkept.handed access (hmem access hin hkeep) width
      | false => exact (hown access hin hkeep).handed width
    · cases hkeep : keep a with
      | true =>
        cases hkeep' : keep b with
        | true => exact hkept.agree a (hmem a ha hkeep) b (hmem b hb hkeep') hsame
        | false => rw [h b hb hkeep' a ha hkeep hsame.symm, (hown b hb hkeep').1]
      | false =>
        cases hkeep' : keep b with
        | true => rw [h a ha hkeep b hb hkeep' hsame, (hown a ha hkeep).1]
        | false => rw [(hown a ha hkeep).1, (hown b hb hkeep').1]

theorem consistent_of_apart (hviews : ViewsAgree declaration)
    (hkeeping : keeping declaration keep = some alone)
    (hkept : Tables alone.ordered) (hconsistent : alone.set.selfConflicting = none)
    (h : AddedApart declaration keep) : declaration.set.selfConflicting = none := by
  obtain ⟨set, hfolded, rfl⟩ := map_eq_some_iff.mp hkeeping
  refine selfConflicting_eq_none fun key kind hwrite hkind hmovement => ?_
  have hnew : ∀ kind, ¬EffectSet.new.declares (.point key) kind := by
    rintro kind ⟨declared, hfound, -⟩
    simp [EffectSet.new] at hfound
  obtain ⟨a, ha, hatarget, hakind⟩ := ((declares_foldlM hviews).mp hwrite).resolve_left (hnew _)
  obtain ⟨b, hb, hbtarget, hbkind⟩ := ((declares_foldlM hviews).mp hkind).resolve_left (hnew _)
  -- the movement is not the protocol's own
  have hbkeep : keep b = true := by
    by_contra hnot
    have hprotocol := hown b hb (Bool.eq_false_of_not_eq_true hnot)
    exact hprotocol.not_movement (hbkind ▸ hmovement)
  have hbmem : b ∈ declaration.ordered.filter keep := mem_filter.mpr ⟨hb, hbkeep⟩
  cases hakeep : keep a with
  | true =>
    have hamem : a ∈ declaration.ordered.filter keep := mem_filter.mpr ⟨ha, hakeep⟩
    have hwrite' : set.declares (.point key) .write :=
      (declares_foldlM hfolded).mpr (.inr ⟨a, hamem, hatarget, hakind⟩)
    have hkind' : set.declares (.point key) kind :=
      (declares_foldlM hfolded).mpr (.inr ⟨b, hbmem, hbtarget, hbkind⟩)
    exact Session.no_movement_beside_write hconsistent hwrite' hkind' hmovement
  | false =>
    have hsame : contentsOf a.effect.target = contentsOf b.effect.target := by
      rw [hatarget, hbtarget]
    obtain ⟨held, hheld⟩ := hkept.handed b hbmem 0
    exact holds_of_movement hheld hbtarget (hbkind ▸ hmovement) (h a ha hakeep b hb hbkeep hsame)

theorem materializes_iff_apart (hviews : ViewsAgree declaration)
    (hkeeping : keeping declaration keep = some alone)
    (h : Materializes store alone tx env codec judges) :
    Materializes store declaration tx env codec judges ↔ AddedApart declaration keep := by
  obtain ⟨hkept, hconsistent, hjudged⟩ := materializes_iff.mp h
  obtain ⟨folded, hfolded, hsame⟩ := foldlM_filter EffectSet.sameReserves_new hown hviews
  have hset :
      alone = { declaration with ordered := declaration.ordered.filter keep, set := folded } := by
    obtain ⟨set, hset, rfl⟩ := map_eq_some_iff.mp hkeeping
    obtain rfl := some.inj (hset.symm.trans hfolded)
    rfl
  have hordered : alone.ordered = declaration.ordered.filter keep := by rw [hset]
  rw [materializes_iff, tables_iff_apart hown (hordered ▸ hkept)]
  refine ⟨fun hall => hall.1, fun hapart => ⟨hapart, ?_, ?_⟩⟩
  · exact consistent_of_apart hown hviews hkeeping hkept hconsistent hapart
  · rw [declaredReservations_of_same hsame]
    rw [hset] at hjudged
    exact hjudged

end Beside

section Trees
open Admission

variable {H : Hasher}

def Provisions (d d' : Declaration) : Prop :=
  ∀ access ∈ d'.ordered, access ∈ d.ordered ∨ OfProtocol access

variable {d : Declaration}

theorem Provisions.trans {d₁ d₂ : Declaration} (h : Provisions d d₁) (h' : Provisions d₁ d₂) :
    Provisions d d₂ := by
  intro access haccess
  rcases h' access haccess with hbefore | hadded
  · exact h access hbefore
  · exact .inr hadded

theorem provisions_of_grown {d' : Declaration} (h : Grown d d') : Provisions d d' :=
  fun access haccess => (h.added access haccess).imp_right fun hread => ⟨hread.2.1, .inl hread.1⟩

theorem foldlM_pushKernelEffect_provisions {a a' : Admitted} {keys : List SubstateKey}
    (h : keys.foldlM pushKernelEffect a = .ok a') : Provisions a.declaration a'.declaration := by
  refine Library.foldlM_invariant (P := fun b : Admitted => Provisions a.declaration b.declaration)
    (fun b b' key hb hstep => ?_) h fun _ => .inl
  unfold pushKernelEffect at hstep
  dsimp only at hstep
  split at hstep
  · cases hstep
  · cases hstep
    refine hb.trans fun access haccess => (mem_append.mp haccess).imp_right fun hmarker => ?_
    rw [mem_singleton.mp hmarker]
    exact ⟨rfl, .inr rfl⟩

def authored (access : DeclaredAccess) : Bool := access.clause.isSome

variable {N : IntentHasher} {tree : IntentTree} {identity : ℕ} {chain : ChainRecords}
  {ruleOf : List ℕ → Option StoredRule} {a : Admitted}

theorem admitTree_provisions (h : admitTree H N tree identity chain ruleOf = .ok a) :
    ∃ t : AdmittedTree H N tree identity chain ruleOf a,
      Provisions t.walk.walked.declaration a.declaration := by
  obtain ⟨t, keys, hpushed⟩ := admitTree_pushed h
  exact ⟨t, (provisions_of_grown (signIns_grown t.walk.signed)).trans
    (foldlM_pushKernelEffect_provisions hpushed)⟩

theorem ofProtocol_of_unauthored (h : admitTree H N tree identity chain ruleOf = .ok a) :
    ∀ access ∈ a.declaration.ordered, authored access = false → OfProtocol access := by
  obtain ⟨t, hprovisions⟩ := admitTree_provisions h
  obtain ⟨nodes, hnodes⟩ := lowerAll_traces t.walk.walkedFrom
  intro access haccess hno
  rcases hprovisions access haccess with hwalked | hadded
  · rw [hnodes.ordered] at hwalked
    obtain ⟨n, hn, hframe⟩ := mem_flatMap.mp hwalked
    rcases n.parts.grown.added access hframe with hevaluated | hread
    · rw [authored, (told_of_eval n.parts.evaluated).2 access hevaluated] at hno
      cases hno
    · exact ⟨hread.2.1, .inl hread.1⟩
  · exact hadded

/-- Of every accepted tree whose clauses' own accesses materialize: the whole declaration does
exactly if nothing admission added stands on a leaf or a collection a clause holds as value. -/
theorem injected_accesses_materialize_iff (h : admitTree H N tree identity chain ruleOf = .ok a) :
    ∃ alone, keeping a.declaration authored = some alone ∧
      ∀ store tx env codec judges, Materializes store alone tx env codec judges →
        (Materializes store a.declaration tx env codec judges ↔
          AddedApart a.declaration authored) := by
  have hviews : ViewsAgree a.declaration := viewsAgree_of_folds (admitTree_folded h)
  have hown := ofProtocol_of_unauthored h
  obtain ⟨folded, hfolded, -⟩ := foldlM_filter EffectSet.sameReserves_new hown hviews
  have hkeeping : keeping a.declaration authored = some _ :=
    map_eq_some_iff.mpr ⟨folded, hfolded, rfl⟩
  exact ⟨_, hkeeping, fun store tx env codec judges hmaterializes =>
    materializes_iff_apart hown hviews hkeeping hmaterializes⟩

end Trees

section Sent
open Admission Publish

def memberBadge : ResourceMeta := ⟨recaller.1, .fungible, [.bytes [2]], ∅⟩

def membersBadge : ResourceAddr := memberBadge.address codedHasher

def membersCoin : ResourceMeta :=
  ⟨recaller.1, .fungible, [.bytes [3]], (∅ : ResourceGrants).insert GrantedBehaviour.withdraw
    (.encoded (.require (.held membersBadge .balance)))⟩

def send : MethodSignature :=
  { MethodSignature.empty with
    params := [.resource]
    outputs := [.arg 0]
    effects := [.effect none (.point (selfChild VAULT (.single (.arg 0)))) (.delta .out)
      (some (.arg 0)) none]
    abi := [.handle 0 0] }

def senderRecords : ChainRecords := .running [("send", send), ("keep", payIn)]

def sends (resources : List ResourceMeta) : IntentTree where
  root := .mk ⟨0, 0, 9, 0⟩ [⟨1, .principal⟩] [⟨1, .principal⟩]
    (resources.zipIdx.flatMap fun (resource, index) =>
      [⟨Admission.purse, "send", [.literal (.address (resource.address codedHasher).1)], []⟩,
        ⟨recaller, "keep", [.value (.edge ⟨2 * index, 0⟩) []], []⟩]) [] [] []
  instances := []
  resources := resources

def standing : MemoryStore :=
  { MemoryStore.new with
    cells := ((((∅ : ExtTreeMap SubstateKey Bytes).insert
      (childKey codedHasher Admission.purse.1 CONFIG []) [1]).insert
      (childKey codedHasher recaller.1 CONFIG []) [1]).insert
      (childKey codedHasher ⟨1, .principal⟩ AUTH []) [1]).insert
      (vaultCell codedHasher Admission.purse.1 membersBadge) (encodeAmount 5) }

def materializesStanding (declaration : Declaration) : Bool :=
  passes (opensOver standing declaration) fun _ => true

theorem materializes_of_standing {declaration : Declaration}
    (h : materializesStanding declaration = true) :
    Materializes (.new standing.toBaseline) declaration 9 plainEnv plainCodec .whole := by
  obtain ⟨s, hs, -⟩ := passes_iff.mp h
  exact ⟨s, hs⟩

theorem error_of_map {ε α β : Type} {x : Except ε α} {f : α → β} {e : ε} (h : x.map f = .error e) :
    x = .error e := by
  cases x with
  | ok a => cases h
  | error e' =>
    injection h with h
    rw [h]

/-- The coin and its badge are sent in one tree. What the clauses declare materializes; with the
read of the badge that the coin's entry asks for, the badge's vault is refused as mixed. -/
theorem badge_sent_with_its_coin_is_mixed :
    checkSignature send = .ok () ∧ checkSignature payIn = .ok () ∧
    ∃ a alone, admitCoded (sends [membersCoin, memberBadge]) senderRecords = .ok a ∧
      keeping a.declaration authored = some alone ∧
      Materializes (.new standing.toBaseline) alone 9 plainEnv plainCodec .whole ∧
      opensOver standing a.declaration = .error
        (.mixedContents (.point (vaultCell codedHasher Admission.purse.1 membersBadge))) := by
  refine ⟨rfl, rfl, ?_⟩
  have hrun : passes (admitCoded (sends [membersCoin, memberBadge]) senderRecords) (fun a =>
        (keeping a.declaration authored).any materializesStanding &&
          decide ((opensOver standing a.declaration).map (fun _ => ()) = .error
            (.mixedContents (.point (vaultCell codedHasher Admission.purse.1 membersBadge))))) =
      true := by decide +kernel
  obtain ⟨a, ha, h⟩ := passes_iff.mp hrun
  obtain ⟨halone, hmixed⟩ := Bool.and_eq_true_iff.mp h
  obtain ⟨alone, hkeeping, hstands⟩ := (Option.any_eq_true _ _).mp halone
  refine ⟨a, alone, ha, hkeeping, materializes_of_standing hstands, ?_⟩
  exact error_of_map (of_decide_eq_true hmixed)

/-- The coin sent without its badge materializes. -/
theorem coin_sent_alone_materializes :
    ∃ a, admitCoded (sends [membersCoin]) senderRecords = .ok a ∧
      Materializes (.new standing.toBaseline) a.declaration 9 plainEnv plainCodec .whole := by
  have hrun : passes (admitCoded (sends [membersCoin]) senderRecords) (fun a =>
        (keeping a.declaration authored).any materializesStanding &&
        decide (AddedApart a.declaration authored)) = true := by
    decide +kernel
  obtain ⟨a, ha, h⟩ := passes_iff.mp hrun
  obtain ⟨halone, hapart⟩ := Bool.and_eq_true_iff.mp h
  obtain ⟨alone, hkeeping, hiff⟩ := injected_accesses_materialize_iff ha
  have hstands : materializesStanding alone = true := by
    rw [hkeeping] at halone
    exact halone
  have hmaterializes := materializes_of_standing hstands
  exact ⟨a, ha, (hiff _ _ _ _ _ hmaterializes).mpr (of_decide_eq_true hapart)⟩

/-- Sending the coin carries the coin's entry, asked of the purse it leaves. -/
theorem sent_coin_asks_for_its_badge :
    ∃ (a : Admitted) (t : AdmittedTree codedHasher lentHasher (sends [membersCoin]) 0 senderRecords
        (fun _ => none) a) (n : AdmittedNode t.setting),
      admitCoded (sends [membersCoin]) senderRecords = .ok a ∧
      n.CarriesEntries Admission.purse.1 (membersCoin.address codedHasher)
        membersCoin.rules .out := by
  have hrun : passes (admitCoded (sends [membersCoin]) senderRecords) (fun a =>
      a.frames.flatten.any fun access => decide (
        access.holds = some (membersCoin.address codedHasher) ∧ access.reach = none ∧
          access.effect.target.owner = Admission.purse.1 ∧
          access.effect.mode.moves = some .out)) = true := by
    decide +kernel
  obtain ⟨a, ha, h⟩ := passes_iff.mp hrun
  obtain ⟨access, haccess, hsent⟩ := List.any_eq_true.mp h
  obtain ⟨hholds, hreach, howner, hmoves⟩ := of_decide_eq_true hsent
  obtain ⟨t, ⟨nodes, hnodes⟩, hcarry⟩ := movements_carry_their_entries codedHasher_injective ha
  rw [t.frames, t.walk.frames, hnodes.frames] at haccess
  obtain ⟨frame, hframe, haccess⟩ := mem_flatten.mp haccess
  obtain ⟨n, hn, rfl⟩ := mem_map.mp hframe
  have hevaluated : access ∈ n.judged.evaluated.ordered := by
    refine (n.parts.grown.added access haccess).resolve_right fun hread => ?_
    rw [hholds] at hread
    cases hread.2.1
  have hanswers := hcarry nodes hnodes n hn access hevaluated _ membersCoin.rules .out hreach hholds
    hmoves ⟨_, _, _, rfl⟩
  rw [howner] at hanswers
  exact ⟨a, t, n, ha, hanswers⟩

end Sent

end Kernel

end HyperscaleVm

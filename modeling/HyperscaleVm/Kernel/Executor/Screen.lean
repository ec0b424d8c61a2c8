import HyperscaleVm.Effects.Admission.Authority
import HyperscaleVm.Kernel.Executor.Apply
import HyperscaleVm.Kernel.Session.Reservations
import HyperscaleVm.Library.Refusals

/-!
# The screen over a batch (`executor.rs`, `screen_batch`)
-/

namespace HyperscaleVm.Effects

/-- The set is the fold of the accesses, each at some width. -/
inductive Folds : List DeclaredAccess → EffectSet → Prop where
  | nil : Folds [] .new
  | push {accesses : List DeclaredAccess} {set set' : EffectSet} {access : DeclaredAccess}
      {width : ℕ}
      (before : Folds accesses set)
      (folds : (set.insertBounded access.effect width).map Prod.fst = some set') :
      Folds (accesses ++ [access]) set'

namespace Folds

variable {accesses : List DeclaredAccess} {set : EffectSet}

theorem width_le (h : Folds accesses set) (target : EffectTarget) :
    set.widthOf target ≤ MAX_SLOT_WIDTH := by
  induction h with
  | nil => exact le_of_eq rfl
  | push before folds ih =>
    rw [EffectSet.insertBounded_fst] at folds
    obtain ⟨modes, -, rfl⟩ := Option.map_eq_some_iff.mp folds
    unfold EffectSet.widthOf at ih ⊢
    dsimp only
    rw [Library.getElem?_insert_eq]
    split
    · rename_i htarget
      subst htarget
      exact (min_le_left _ _).trans ih
    · exact ih

theorem refold (h : Folds accesses set) {width : EffectTarget → ℕ}
    (hwidth : ∀ target, width target ≤ MAX_SLOT_WIDTH) :
    ∃ folded, accesses.foldlM (fun (set : EffectSet) access =>
        (set.insertBounded access.effect (width access.effect.target)).map Prod.fst) .new =
          some folded ∧
      set.SameModes folded ∧
      ∀ (target : EffectTarget) (declared : Declared), folded.byTarget[target]? = some declared →
        declared.width = width target := by
  induction h with
  | nil =>
    refine ⟨.new, rfl, fun _ => rfl, fun target declared hfound => ?_⟩
    simp [EffectSet.new] at hfound
  | @push accesses set set' access w before folds ih =>
    obtain ⟨folded, hfolded, hsame, hwidths⟩ := ih
    obtain ⟨folded', hinsert, hsame', hat⟩ := hsame.insert folds (width access.effect.target)
    refine ⟨folded', ?_, hsame', fun target declared hfound => ?_⟩
    · rw [List.foldlM_append, hfolded]
      simpa using hinsert
    · rw [hat target] at hfound
      split at hfound
      · rename_i htarget
        subst htarget
        obtain rfl := Option.some.inj hfound
        -- the target stood at this width already, or at the widest there is
        refine min_eq_right ?_
        unfold EffectSet.widthOf
        cases hstood : folded.byTarget[access.effect.target]? with
        | none => exact hwidth _
        | some stood => exact (hwidths _ stood hstood).ge
      · exact hwidths target declared hfound

end Folds

namespace Admission

variable {H : Hasher}

def Folded (declaration : Declaration) : Prop := Folds declaration.ordered declaration.set

theorem foldUnion_folded {frame union union' : Declaration} (h : foldUnion frame union = .ok union')
    (hunion : Folded union) : Folded union' := by
  unfold foldUnion at h
  refine Library.foldlM_invariant (P := Folded) (fun d d' access hd hstep => ?_) h hunion
  cases hinsert : d.set.insertBounded access.effect (frame.set.widthOf access.effect.target) with
  | none =>
    rw [hinsert] at hstep
    cases hstep
  | some found =>
    rw [hinsert] at hstep
    cases hstep
    exact .push hd (congrArg (Option.map Prod.fst) hinsert)

theorem lowerNode_folded {S : Setting H} {w w' : Walked} {at_ : ℕ × ℕ}
    (h : lowerNode S w at_ = .ok w') (hw : Folded w.declaration) : Folded w'.declaration := by
  obtain ⟨l⟩ := lowerNode_ok h
  exact foldUnion_folded l.union hw

theorem signIn_folded {d d' : Declaration} {view : IntentView} {account : Address}
    (h : signIn H d view account = .ok d') (hd : Folded d) : Folded d' := by
  unfold signIn at h
  dsimp only at h
  split at h
  · cases h
  · rename_i set moved hinsert
    cases h
    exact .push hd (congrArg (Option.map Prod.fst) hinsert)

theorem pushKernelEffect_folded {a a' : Admitted} {key : SubstateKey}
    (h : pushKernelEffect a key = .ok a') (ha : Folded a.declaration) : Folded a'.declaration := by
  unfold pushKernelEffect at h
  dsimp only at h
  split at h
  · cases h
  · rename_i set moved hinsert
    cases h
    exact .push ha (congrArg (Option.map Prod.fst) hinsert)

theorem admitTree_folded {N : IntentHasher} {tree : IntentTree} {identity : ℕ}
    {chain : ChainRecords} {ruleOf : List ℕ → Option StoredRule} {a : Admitted}
    (h : admitTree H N tree identity chain ruleOf = .ok a) : Folded a.declaration := by
  obtain ⟨t, keys, hpushed⟩ := admitTree_pushed h
  have hwalked : Folded t.walk.walked.declaration :=
    Library.foldlM_invariant (P := fun w : Walked => Folded w.declaration)
      (fun _ _ _ hw hstep => lowerNode_folded hstep hw) t.walk.walkedFrom .nil
  have hsignedIn : Folded t.admitted.declaration :=
    Library.foldlM_invariant (P := Folded) (fun _ _ _ hd hstep => signIn_folded hstep hd)
      t.walk.signed
      hwalked
  exact Library.foldlM_invariant (P := fun a : Admitted => Folded a.declaration)
    (fun _ _ _ ha hstep => pushKernelEffect_folded hstep ha) hpushed hsignedIn

end Admission

end HyperscaleVm.Effects

namespace HyperscaleVm.Kernel
open Effects Effects.Admission Library
open Std (ExtTreeSet)

theorem viewsAgree_of_folds {declaration : Declaration}
    (h : Folds declaration.ordered declaration.set) :
    ViewsAgree declaration := by
  obtain ⟨folded, hfolded, hsame, hwidths⟩ := h.refold h.width_le
  unfold ViewsAgree foldedSet
  rw [hfolded, EffectSet.ext_of_sameModes hsame hwidths]

/-- `BatchTx`, as the screen reads it: the crossing cells are the keys of the claims it takes, of
the records it writes, and of the declines its refusal would write. -/
structure BatchTx where
  tx : TxHash
  declaration : Declaration
  nullifiers : List IntentRecord
  claimCells : List SubstateKey
  recordCells : List SubstateKey
  neverCells : List SubstateKey

/-- `created_cells`, each with whether it is a nullifier. -/
def createdCells (entry : BatchTx) : List (SubstateKey × Bool) :=
  ((entry.nullifiers.flatMap IntentRecord.nullifiers).map fun key => (key, true)) ++
    (entry.claimCells.map fun key => (key, false)) ++ entry.recordCells.map fun key => (key, false)

def markerWrites (entry : BatchTx) : List (SubstateKey × Bool) :=
  createdCells entry ++ entry.neverCells.map fun key => (key, false)

def declaresExclusively (entry : BatchTx) (key : SubstateKey) : Bool :=
  entry.declaration.set.contains ⟨.point key, .write .both⟩

/-- One entry of `screen_batch`, beside the transactions seen before it. -/
def screenEntry (seen : ExtTreeSet TxHash) (entry : BatchTx) :
    Except BatchError (ExtTreeSet TxHash) := do
  require (!seen.contains entry.tx) (.duplicateTx entry.tx)
  require (decide (foldedSet entry.declaration = some entry.declaration.set))
    (.inconsistentDeclaration entry.tx)
  tryAll (fun (key, nullifier) => require (declaresExclusively entry key)
    (if nullifier then .undeclaredNullifier entry.tx key else .undeclaredCrossingCell entry.tx key))
    (markerWrites entry)
  return seen.insert entry.tx

def screenBatch (batch : List BatchTx) : Except BatchError Unit :=
  (batch.foldlM screenEntry ∅).map fun _ => ()

def BatchTx.Admitted (H : Hasher) (entry : BatchTx) : Prop :=
  ∃ N tree identity chain ruleOf a, admitTree H N tree identity chain ruleOf = .ok a ∧
    entry.declaration = a.declaration

/-- The two views of a declaration agree in every tree admission accepts, so no batch of such
trees is refused for a declaration at odds with itself. -/
theorem admitted_views_agree (H : Hasher) :
    (∀ N tree identity chain ruleOf a, admitTree H N tree identity chain ruleOf = .ok a →
      foldedSet a.declaration = some a.declaration.set) ∧
    ∀ batch : List BatchTx, (∀ entry ∈ batch, entry.Admitted H) →
      ∀ tx, screenBatch batch ≠ .error (.inconsistentDeclaration tx) := by
  have hviews : ∀ N tree identity chain ruleOf a,
      admitTree H N tree identity chain ruleOf = .ok a →
      foldedSet a.declaration = some a.declaration.set :=
    fun N tree identity chain ruleOf a h => viewsAgree_of_folds (admitTree_folded h)
  refine ⟨hviews, fun batch hbatch tx hrefused => ?_⟩
  have hscreened :
      Refuses (fun error => ∀ tx, error ≠ .inconsistentDeclaration tx) (screenBatch batch) := by
    refine .map (.foldlM_each fun entry hentry seen => ?_)
    obtain ⟨N, tree, identity, chain, ruleOf, a, hadmitted, hdeclared⟩ := hbatch entry hentry
    have hagree : foldedSet entry.declaration = some entry.declaration.set := by
      rw [hdeclared]
      exact hviews N tree identity chain ruleOf a hadmitted
    refine .seq (.require fun _ => by simp) fun _ => .seq (.require fun hodd => ?_) fun _ =>
      .seq (.tryAll fun marker _ => .require fun _ => ?_) fun _ => .pure _
    · exact absurd hagree (of_decide_eq_false hodd)
    · split <;> simp
  exact hscreened _ hrefused tx rfl

theorem lent_account_views_agree :
    ∃ a, admitCoded lentAccount lentRecords = .ok a ∧
      2 ≤ a.declaration.ordered.length ∧ foldedSet a.declaration = some a.declaration.set ∧
      ∀ tx, screenBatch [⟨7, a.declaration, [], [], [], []⟩] ≠
        .error (.inconsistentDeclaration tx) := by
  have hrun : passes (admitCoded lentAccount lentRecords)
      (fun a => decide (2 ≤ a.declaration.ordered.length)) = true := by decide +kernel
  obtain ⟨a, ha, hlen⟩ := passes_iff.mp hrun
  obtain ⟨hagree, hscreen⟩ := admitted_views_agree codedHasher
  refine ⟨a, ha, of_decide_eq_true hlen, hagree _ _ _ _ _ a ha, hscreen _ fun entry hentry => ?_⟩
  rw [List.mem_singleton.mp hentry]
  exact ⟨_, _, _, _, _, a, ha, rfl⟩

end HyperscaleVm.Kernel

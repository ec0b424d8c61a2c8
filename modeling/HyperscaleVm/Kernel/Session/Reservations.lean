import HyperscaleVm.Kernel.Session.Opening
import HyperscaleVm.Kernel.Session.Receipt
import HyperscaleVm.Types.EffectFold

/-!
# The two views of a declaration
-/

namespace HyperscaleVm.Kernel
open Effects

def foldedSet (declaration : Declaration) : Option EffectSet :=
  declaration.ordered.foldlM (fun (set : EffectSet) access =>
    (set.insertBounded access.effect (declaration.set.widthOf access.effect.target)).map Prod.fst)
      .new

def ViewsAgree (declaration : Declaration) : Prop := foldedSet declaration = some declaration.set
deriving Decidable

theorem declares_foldlM {width : EffectTarget → ℕ} {ordered : List DeclaredAccess}
    {set set' : EffectSet} (h : ordered.foldlM (fun (set : EffectSet) access =>
      (set.insertBounded access.effect (width access.effect.target)).map Prod.fst) set = some set')
    {target : EffectTarget} {kind : ModeKind} :
    set'.declares target kind ↔ set.declares target kind ∨ ∃ access ∈ ordered,
      access.effect.target = target ∧ access.effect.mode.kind = kind := by
  induction ordered generalizing set with
  | nil =>
    obtain rfl := Option.some.inj h
    simp
  | cons access ordered ih =>
    rw [List.foldlM_cons] at h
    obtain ⟨next, hnext, h⟩ := Option.bind_eq_some_iff.mp h
    obtain ⟨⟨next', moved⟩, hinsert, rfl⟩ := Option.map_eq_some_iff.mp hnext
    rw [ih h, EffectSet.declares_insertBounded hinsert, List.exists_mem_cons_iff, or_assoc,
      eq_comm (a := target), eq_comm (a := kind)]

theorem ViewsAgree.declares {declaration : Declaration} (h : ViewsAgree declaration)
    {access : DeclaredAccess} (haccess : access ∈ declaration.ordered) :
    declaration.set.declares access.effect.target access.effect.mode.kind :=
  (declares_foldlM h).mpr (.inr ⟨access, haccess, rfl, rfl⟩)

end HyperscaleVm.Kernel

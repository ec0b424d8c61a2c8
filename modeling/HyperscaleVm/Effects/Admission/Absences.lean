import HyperscaleVm.Effects.Admission.Authority
import HyperscaleVm.Effects.Publish.Creates

/-!
# Creates and the absences other nodes wait for (`effects/src/admission/node.rs`, `judge_creates`)

Every absence of a tree is judged before any of its bodies runs, so a node that waits for
one an earlier node destroys would run on a state it never asked for.
-/

namespace HyperscaleVm.Effects.Admission
open Library List
open Publish

inductive Leaf where
  | cell (key : SubstateKey)
  | entry (key : EntryKey)

def Names : EffectTarget → Leaf → Prop
  | .point key, .cell key' => key' = key
  | .entry owner collection order, .entry key => key = ⟨owner, collection, order⟩
  | .range owner collection lo hi _, .entry key =>
    key.owner = owner ∧ key.collection = collection ∧ lo ≤ key.order ∧ key.order ≤ hi
  | _, _ => False

def Leaf.target : Leaf → EffectTarget
  | .cell key => .point key
  | .entry key => .entry key.owner key.collection key.order

/-- An interval that buys no entry is asked nothing. -/
def Asked : EffectTarget → Prop
  | .range _ _ _ _ cap => cap ≠ 0
  | _ => True

/-- A state as a condition sees it: the leaves that are there, and what is answered of the
leaves of rules that ask for something else. -/
structure Standing where
  there : Leaf → Prop
  answers : JudgedLeaf → Bool

namespace Standing

variable (s : Standing)

def Holds (target : EffectTarget) : Prop := ∃ leaf, Names target leaf ∧ s.there leaf

open Classical in
noncomputable def met : JudgedLeaf → Bool
  | .presence target expect => metBy expect (decide (Asked target ∧ s.Holds target))
  | leaf => s.answers leaf

def Meets (frame : Declaration) : Prop := ∀ rule ∈ frame.required, rule.holds s.met = true

end Standing

def judgedLeaves (frame : Declaration) : List JudgedLeaf := frame.required.flatMap Rule.leaves

/-- What the conditions may need present has a leaf that nothing they may need absent names. -/
def Coherent (frame : Declaration) : Prop :=
  ∀ target, .presence target .present ∈ judgedLeaves frame → Asked target ∧
    ∃ leaf, Names target leaf ∧ ∀ other, Asked other →
      .presence other .absent ∈ judgedLeaves frame → ¬ Names other leaf

section Frames

variable {frame : Declaration} {leaf : Leaf}

end Frames

section Trees

variable {H : Hasher} {S : Setting H}

end Trees

section Witnessed

variable {H : Hasher} {S : Setting H} {w w' : Walked} {n : AdmittedNode S}

theorem fence_rule {target : CallTarget} {d d' : Declaration} {rule : Rule JudgedLeaf}
    (h : fence H target d = .ok (d', some rule)) :
    ∃ leaf, rule = .require (.presence leaf .present) := by
  unfold fence at h
  split at h
  · cases h
  dsimp only at h
  split at h
  · cases h
  · split at h
    · cases h
    · cases h
      exact ⟨_, rfl⟩

theorem Walked.Lowers.required (h : w.Lowers n w') {rule : Rule JudgedLeaf}
    (hrule : rule ∈ w'.declaration.required) (hnew : rule ∉ w.declaration.required)
    (hfence : ∀ leaf, rule ≠ .require (.presence leaf .present)) :
    rule ∈ n.judged.frame.required := by
  obtain ⟨c, hc, rfl⟩ := mem_map.mp hrule
  rw [h.conditions, mem_append, mem_append] at hc
  rcases hc with (hc | hc) | hc
  · exact absurd (mem_map.mpr ⟨c, hc, rfl⟩) hnew
  · obtain ⟨own, hown, rfl⟩ := mem_map.mp hc
    exact mem_map.mpr ⟨own, (mem_filter.mp hown).1, rfl⟩
  · obtain ⟨fenced, hfenced, rfl⟩ := mem_map.mp hc
    have hsome : n.judged.fence = some fenced := by simpa using hfenced
    have hfrom := n.parts.fenceFrom
    rw [hsome] at hfrom
    obtain ⟨leaf, hleaf⟩ := fence_rule hfrom
    exact absurd hleaf (hfence leaf)

theorem Walked.Lowers.creates (h : w.Lowers n w') {target : EffectTarget}
    (hcreated : target ∈ w'.created) (hnew : target ∉ w.created) : n.Creates target :=
  ((judgeCreates_ok h.created).2 target).mp hcreated |>.resolve_right hnew

end Witnessed

end HyperscaleVm.Effects.Admission

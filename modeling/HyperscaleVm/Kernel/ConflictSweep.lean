import HyperscaleVm.Kernel.Conflict
import HyperscaleVm.Library.UnionFind

/-!
# Merging one bucket of claims (`kernel/src/executor.rs`)
-/

namespace HyperscaleVm.Kernel
open HyperscaleVm.Library List Option ConflictClass

variable {n : ℕ}

structure PointClasses (n : ℕ) where
  reads : List (Fin n)
  commutative : List (Fin n)
  writes : List (Fin n)

namespace PointClasses

def empty : PointClasses n := ⟨[], [], []⟩

def push (p : PointClasses n) (index : Fin n) (kind : ModeKind) : PointClasses n :=
  match kind.conflictClass with
  | .read => { p with reads := p.reads ++ [index] }
  | .movement => { p with commutative := p.commutative ++ [index] }
  | .write => { p with writes := p.writes ++ [index] }

/-- The element every claim on the key is merged with, where there is one: the
first write, or else the first read when a commutative claim faces it. -/
def anchor (p : PointClasses n) : Option (Fin n) :=
  p.writes.head?.or (if p.reads.isEmpty || p.commutative.isEmpty then none else p.reads.head?)

def mergeInto (p : PointClasses n) (component : Forest n) : Forest n :=
  match p.anchor with
  | none => component
  | some anchor => component.unionAll anchor (p.reads ++ p.commutative ++ p.writes)

def of (p : PointClasses n) : ConflictClass → List (Fin n)
  | .read => p.reads
  | .movement => p.commutative
  | .write => p.writes

end PointClasses

structure CollectionClaim (n : ℕ) where
  tx : Fin n
  lo : ℕ
  hi : ℕ
  cls : ConflictClass

/-- How far each claim of a class the sweep is still inside reaches, and an entry
standing for its component. -/
abbrev Active (n : ℕ) := List (ℕ × Fin n)

def absorbEntry (claim : Fin n) (lo : ℕ) (state : Option ℕ × Forest n) (entry : ℕ × Fin n) :
    Option ℕ × Forest n :=
  if entry.1 < lo then state
  else (some ((state.1.map (max · entry.1)).getD entry.1), state.2.union claim entry.2)

/-- Merge `claim` with every unexpired entry of a conflicting class, answering how
far the collapsed class reaches. The list itself is drained by the caller. -/
def absorb (active : Active n) (component : Forest n) (claim : Fin n) (lo : ℕ) :
    Option ℕ × Forest n :=
  active.foldl (absorbEntry claim lo) (none, component)

structure Sweep (n : ℕ) where
  component : Forest n
  active : ConflictClass → Active n

def sweepClass (claim : CollectionClaim n) (state : ℕ × Sweep n) (cls : ConflictClass) :
    ℕ × Sweep n :=
  if !claim.cls.conflictsWith cls then state
  else
    let (reach, s) := state
    let (far?, component) := absorb (s.active cls) s.component claim.tx claim.lo
    let drained := Function.update s.active cls []
    match far? with
    | none => (reach, ⟨component, drained⟩)
    | some far =>
      if cls = claim.cls then
        -- its own class: the reach folds into the entry this claim leaves behind
        (max reach far, ⟨component, drained⟩)
      else (reach, ⟨component, Function.update s.active cls [(far, claim.tx)]⟩)

def Sweep.push (s : Sweep n) (cls : ConflictClass) (entry : ℕ × Fin n) : Sweep n :=
  ⟨s.component, Function.update s.active cls (s.active cls ++ [entry])⟩

theorem Sweep.mem_push (s : Sweep n) (cls other : ConflictClass) (entry e : ℕ × Fin n) :
    e ∈ (s.push cls entry).active other ↔ e ∈ s.active other ∨ (other = cls ∧ e = entry) := by
  by_cases h : other = cls
  · subst h; simp [push]
  · simp [push, h]

def sweepClaim (s : Sweep n) (claim : CollectionClaim n) : Sweep n :=
  let (reach, s) := ConflictClass.all.foldl (sweepClass claim) (claim.hi, s)
  s.push claim.cls (reach, claim.tx)

def CollectionClaim.key (c : CollectionClaim n) : ℕ ×ₗ ℕ ×ₗ Fin n :=
  toLex (c.lo, toLex (c.hi, c.tx))

def sweepCollection (claims : List (CollectionClaim n)) (component : Forest n) : Forest n :=
  ((claims.insertionSort fun a b => a.key ≤ b.key).foldl sweepClaim
    ⟨component, fun _ => []⟩).component

namespace PointClasses
variable {E : Fin n → Fin n → Prop} (p : PointClasses n)

theorem mem_of_push (i j : Fin n) (kind : ModeKind) (c : ConflictClass) :
    j ∈ (p.push i kind).of c ↔ j ∈ p.of c ∨ (j = i ∧ kind.conflictClass = c) := by
  unfold push
  cases kind.conflictClass <;> cases c <;> simp [of]

theorem mem_all_iff (j : Fin n) : j ∈ p.reads ++ p.commutative ++ p.writes ↔ ∃ c, j ∈ p.of c := by
  constructor
  · intro h
    rcases mem_append.mp h with h | h
    · rcases mem_append.mp h with h | h
      · exact ⟨.read, h⟩
      · exact ⟨.movement, h⟩
    · exact ⟨.write, h⟩
  · rintro ⟨c, h⟩
    cases c <;> simp_all [of]

variable {c : ConflictClass} {j : Fin n}

theorem anchor_linked (hE : Equivalence E)
    (link : ∀ c d i j, i ∈ p.of c → j ∈ p.of d → c.conflictsWith d = true → E i j)
    {a : Fin n} (ha : p.anchor = some a) (hj : j ∈ p.of c) : E a j := by
  unfold anchor at ha
  cases hw : p.writes with
  | cons w ws =>
    -- a write conflicts with every class
    obtain rfl : w = a := by simpa [hw] using ha
    exact link .write c w j (by simp [of, hw]) hj (by cases c <;> rfl)
  | nil =>
    rw [hw, head?_nil, none_or] at ha
    cases hr : p.reads with
    | nil => simp [hr] at ha
    | cons r rs =>
      cases hm : p.commutative with
      | nil => simp [hm] at ha
      | cons m ms =>
        obtain rfl : r = a := by simpa [hr, hm] using ha
        have hread : r ∈ p.of .read := by simp [of, hr]
        have hmove : m ∈ p.of .movement := by simp [of, hm]
        cases c with
        | read =>
          exact hE.trans (link .read .movement r m hread hmove rfl)
            (link .movement .read m j hmove hj rfl)
        | movement => exact link .read .movement r j hread hj rfl
        | write => simp [of, hw] at hj

variable {d : ConflictClass} {i : Fin n}

theorem anchor_of_conflict (hi : i ∈ p.of c)
    (hj : j ∈ p.of d) (h : c.conflictsWith d = true) : ∃ a, p.anchor = some a := by
  rw [← isSome_iff_exists, anchor]
  cases hw : p.writes with
  | cons w ws => simp
  | nil =>
    cases hr : p.reads with
    | nil => cases c <;> cases d <;> simp_all [of, conflictsWith, compatible,
        representative]
    | cons r rs =>
      cases hm : p.commutative with
      | nil => cases c <;> cases d <;> simp_all [of, conflictsWith, compatible,
          representative]
      | cons m ms => simp

theorem coarsens_mergeInto (f : Forest n) : f.Coarsens (p.mergeInto f) := by
  unfold mergeInto
  split
  · exact fun _ _ h => h
  · exact f.coarsens_unionAll _ _

theorem mergeInto_within (hE : Equivalence E) (f : Forest n) (hf : ∀ i j, f.Same i j → E i j)
    (link : ∀ c d i j, i ∈ p.of c → j ∈ p.of d → c.conflictsWith d = true → E i j) :
    ∀ i j, (p.mergeInto f).Same i j → E i j := by
  unfold mergeInto
  split
  · exact hf
  · rename_i a ha
    refine f.unionAll_within hE hf fun j hj => ?_
    obtain ⟨c, hc⟩ := (p.mem_all_iff j).mp hj
    exact p.anchor_linked hE link ha hc

theorem mergeInto_same (f : Forest n) (hi : i ∈ p.of c)
    (hj : j ∈ p.of d) (h : c.conflictsWith d = true) : (p.mergeInto f).Same i j := by
  obtain ⟨a, ha⟩ := p.anchor_of_conflict hi hj h
  have hmerge : p.mergeInto f = f.unionAll a (p.reads ++ p.commutative ++ p.writes) := by
    simp only [mergeInto, ha]
  rw [hmerge]
  have hai := f.unionAll_same a ((p.mem_all_iff i).mpr ⟨c, hi⟩)
  have haj := f.unionAll_same a ((p.mem_all_iff j).mpr ⟨d, hj⟩)
  exact hai.symm.trans haj

end PointClasses

def CollectionClaim.Meets (c d : CollectionClaim n) : Prop :=
  c.cls.conflictsWith d.cls = true ∧ c.lo ≤ d.hi ∧ d.lo ≤ c.hi

def live (active : Active n) (lo : ℕ) : Active n := active.filter fun e => lo ≤ e.1

theorem absorb_eq (active : Active n) (component : Forest n) (claim : Fin n) (lo : ℕ) :
    absorb active component claim lo = (((live active lo).map Prod.fst).max?,
        component.unionAll claim ((live active lo).map Prod.snd)) := by
  have key : ∀ (reach : Option ℕ) (component : Forest n),
      active.foldl (absorbEntry claim lo) (reach, component) =
      ((reach.toList ++ (live active lo).map Prod.fst).max?,
        component.unionAll claim ((live active lo).map Prod.snd)) := by
    induction active with
    | nil => intro reach component; cases reach <;> rfl
    | cons e active ih =>
      intro reach component
      rw [foldl_cons, absorbEntry]
      by_cases h : e.1 < lo
      · rw [if_pos h, ih, live, live, filter_cons_of_neg (by simpa using h)]
      rw [if_neg h, ih, live, live, filter_cons_of_pos (by simpa using h)]
      cases reach with
      | none => rfl
      | some far =>
        simp only [map_some, getD_some, toList_some, map_cons,
          singleton_append, max?_cons, Forest.unionAll, foldl_cons]
        cases ((active.filter fun e => decide (lo ≤ e.1)).map Prod.fst).max? with
        | none => rfl
        | some m => simp [max_assoc]
  exact key none component

/-- What draining one conflicting class leaves: the live entries merged with the
claim, the other classes untouched, and the class empty, or collapsed to the
furthest live entry in the claim's name; its own class gives that reach up. -/
theorem sweepClass_cases (d : CollectionClaim n) (reach : ℕ) (s : Sweep n) (cls : ConflictClass)
    (hc : d.cls.conflictsWith cls = true) : ∃ reach' active', sweepClass d (reach, s) cls =
        (reach', ⟨s.component.unionAll d.tx ((live (s.active cls) d.lo).map Prod.snd), active'⟩) ∧
      (∀ other, other ≠ cls → active' other = s.active other) ∧
      ((live (s.active cls) d.lo = [] ∧ reach' = reach ∧ active' cls = []) ∨
        ∃ far r, (far, r) ∈ live (s.active cls) d.lo ∧ (∀ e ∈ live (s.active cls) d.lo, e.1 ≤ far) ∧
          ((cls = d.cls ∧ reach' = max reach far ∧ active' cls = []) ∨
            (reach' = reach ∧ active' cls = [(far, d.tx)]))) := by
  simp only [sweepClass, hc, Bool.not_true, Bool.false_eq_true, if_false, absorb_eq]
  cases hm : ((live (s.active cls) d.lo).map Prod.fst).max? with
  | none =>
    have hnil : live (s.active cls) d.lo = [] := by simpa using hm
    exact ⟨_, _, rfl, fun other ho => Function.update_of_ne ho _ _,
      .inl ⟨hnil, rfl, Function.update_self ..⟩⟩
  | some far =>
    obtain ⟨hmem, hmax⟩ := max?_eq_some_iff.mp hm
    obtain ⟨⟨far', r⟩, hr, rfl⟩ := mem_map.mp hmem
    have hle : ∀ e ∈ live (s.active cls) d.lo, e.1 ≤ far' := fun e he =>
      hmax e.1 (mem_map_of_mem he)
    by_cases hown : cls = d.cls
    · simp only [hown, if_true] at hr hle ⊢
      exact ⟨_, _, rfl, fun other ho => Function.update_of_ne ho _ _,
        .inr ⟨far', r, hr, hle, .inl ⟨trivial, rfl, Function.update_self ..⟩⟩⟩
    · simp only [hown, if_false]
      exact ⟨_, _, rfl, fun other ho => Function.update_of_ne ho _ _,
        .inr ⟨far', r, hr, hle, .inr ⟨rfl, Function.update_self ..⟩⟩⟩

section Sweep
variable {E : Fin n → Fin n → Prop}

/-- What holds of the sweep once the claims in `done` have arrived and the sweep
point has reached `at_`: merges stay inside `E`, every active entry is a claim
that arrived, every claim not yet passed is spoken for, and claims that meet are
joined. -/
structure Swept (E : Fin n → Fin n → Prop) (done : List (CollectionClaim n)) (at_ : ℕ)
    (s : Sweep n) : Prop where
  within : ∀ i j, s.component.Same i j → E i j
  backed : ∀ cls, ∀ e ∈ s.active cls, ∃ c ∈ done, c.cls = cls ∧ c.hi = e.1 ∧ E c.tx e.2
  kept : ∀ c ∈ done, c.hi < at_ ∨ ∃ e ∈ s.active c.cls, c.hi ≤ e.1 ∧ s.component.Same c.tx e.2
  joined : ∀ c ∈ done, ∀ d ∈ done, c.Meets d → s.component.Same c.tx d.tx

/-- The same while claim `d` is arriving and the classes in `drained` have been
visited; `reach` is what `d` will leave behind in its own class. -/
structure Draining (E : Fin n → Fin n → Prop) (done : List (CollectionClaim n))
    (d : CollectionClaim n) (drained : List ConflictClass) (state : ℕ × Sweep n) : Prop where
  within : ∀ i j, state.2.component.Same i j → E i j
  backed : ∀ cls, ∀ e ∈ state.2.active cls, ∃ c ∈ done, c.cls = cls ∧ c.hi = e.1 ∧ E c.tx e.2
  far : d.hi ≤ state.1
  reached : state.1 = d.hi ∨ ∃ c ∈ done, c.cls = d.cls ∧ c.hi = state.1 ∧ E c.tx d.tx
  kept : ∀ c ∈ done, c.hi < d.lo ∨
    (∃ e ∈ state.2.active c.cls, c.hi ≤ e.1 ∧ state.2.component.Same c.tx e.2) ∨
    (c.cls = d.cls ∧ c.hi ≤ state.1 ∧ state.2.component.Same c.tx d.tx)
  joined : ∀ c ∈ done, ∀ c' ∈ done, c.Meets c' → state.2.component.Same c.tx c'.tx
  met : ∀ c ∈ done, c.cls ∈ drained → d.cls.conflictsWith c.cls = true → d.lo ≤ c.hi →
    state.2.component.Same c.tx d.tx

variable {done : List (CollectionClaim n)} {d : CollectionClaim n} {drained : List ConflictClass}
  {state : ℕ × Sweep n} {e : ℕ × Fin n}

theorem mem_live {active : Active n} {lo : ℕ} : e ∈ live active lo ↔ e ∈ active ∧ lo ≤ e.1 := by
  simp [live]

theorem Draining.linked (hE : Equivalence E) (h : Draining E done d drained state)
    (link : ∀ c ∈ done, c.Meets d → E c.tx d.tx) (before : ∀ c ∈ done, c.lo ≤ d.hi)
    {cls : ConflictClass} (hc : d.cls.conflictsWith cls = true)
    (he : e ∈ live (state.2.active cls) d.lo) :
    E d.tx e.2 ∧ ∃ c ∈ done, c.cls = cls ∧ c.hi = e.1 ∧ E c.tx d.tx := by
  obtain ⟨hact, hlo⟩ := mem_live.mp he
  obtain ⟨c, hcd, rfl, hhi, hce⟩ := h.backed cls e hact
  have hmeet : c.Meets d := by
    refine ⟨?_, before c hcd, hhi ▸ hlo⟩
    rw [conflictsWith_comm]
    exact hc
  have hlink := link c hcd hmeet
  exact ⟨hE.trans (hE.symm hlink) hce, c, hcd, rfl, hhi, hlink⟩

theorem Draining.step (hE : Equivalence E) (h : Draining E done d drained state)
    (link : ∀ c ∈ done, c.Meets d → E c.tx d.tx) (before : ∀ c ∈ done, c.lo ≤ d.hi)
    (cls : ConflictClass) : Draining E done d (cls :: drained) (sweepClass d state cls) := by
  obtain ⟨reach, s⟩ := state
  by_cases hc : d.cls.conflictsWith cls = true
  · obtain ⟨reach', active', heq, hother, hcls⟩ := sweepClass_cases d reach s cls hc
    rw [heq]
    set comp := s.component.unionAll d.tx ((live (s.active cls) d.lo).map Prod.snd)
    have hlive : ∀ e ∈ live (s.active cls) d.lo, comp.Same d.tx e.2 := fun e he =>
      s.component.unionAll_same d.tx (mem_map_of_mem he)
    have hmono : s.component.Coarsens comp := s.component.coarsens_unionAll _ _
    have hreach : reach ≤ reach' := by
      rcases hcls with ⟨-, rfl, -⟩ | ⟨far, r, -, -, ⟨-, rfl, -⟩ | ⟨rfl, -⟩⟩
      · exact le_rfl
      · exact le_max_left _ _
      · exact le_rfl
    -- a live entry of this class stands for its claims through the arriving one
    have hspoken : ∀ i e, e ∈ s.active cls → d.lo ≤ e.1 → s.component.Same i e.2 →
        comp.Same i d.tx := fun i e he hlo hs =>
      (hmono _ _ hs).trans (hlive e (mem_live.mpr ⟨he, hlo⟩)).symm
    refine ⟨?_, ?_, h.far.trans hreach, ?_, ?_, ?_, ?_⟩
    · refine Forest.unionAll_within hE _ h.within fun j hj => ?_
      obtain ⟨e, he, rfl⟩ := mem_map.mp hj
      exact (h.linked hE link before hc he).1
    · intro X e he
      by_cases hX : X = cls
      · subst hX
        rcases hcls with ⟨-, -, hnil⟩ | ⟨far, r, hr, -, ⟨-, -, hnil⟩ | ⟨-, hone⟩⟩
        · simp [hnil] at he
        · simp [hnil] at he
        · obtain rfl : e = (far, d.tx) := by simpa [hone] using he
          exact (h.linked hE link before hc hr).2
      · exact h.backed X e (hother X hX ▸ he)
    · rcases hcls with ⟨-, rfl, -⟩ | ⟨far, r, hr, -, ⟨hown, rfl, -⟩ | ⟨rfl, -⟩⟩
      · exact h.reached
      · rcases max_choice reach far with hm | hm
        · rw [hm]; exact h.reached
        · rw [hm]; exact .inr (hown ▸ (h.linked hE link before hc hr).2)
      · exact h.reached
    · intro c hcd
      rcases h.kept c hcd with hlt | ⟨e, he, hhi, hs⟩ | ⟨hown, hhi, hs⟩
      · exact .inl hlt
      · by_cases hX : c.cls = cls
        · subst hX
          by_cases hlo : d.lo ≤ e.1
          · have hsame := hspoken c.tx e he hlo hs
            have hel := mem_live.mpr ⟨he, hlo⟩
            rcases hcls with ⟨hnil, -, -⟩ | ⟨far, r, -, hfar, ⟨hown, rfl, -⟩ | ⟨rfl, hone⟩⟩
            · exact absurd (hnil ▸ hel) not_mem_nil
            · exact .inr (.inr ⟨hown, (hhi.trans (hfar e hel)).trans (le_max_right _ _), hsame⟩)
            · have hmem : (far, d.tx) ∈ active' c.cls := by simp [hone]
              exact .inr (.inl ⟨_, hmem, hhi.trans (hfar e hel), hsame⟩)
          · exact .inl (lt_of_le_of_lt hhi (not_le.mp hlo))
        · have hmem : e ∈ active' c.cls := (hother c.cls hX).symm ▸ he
          exact .inr (.inl ⟨e, hmem, hhi, hmono _ _ hs⟩)
      · exact .inr (.inr ⟨hown, hhi.trans hreach, hmono _ _ hs⟩)
    · exact fun c hcd c' hcd' hm => hmono _ _ (h.joined c hcd c' hcd' hm)
    · intro c hcd hmem hconf hlo
      rcases mem_cons.mp hmem with hX | hmem
      · rcases h.kept c hcd with hlt | ⟨e, he, hhi, hs⟩ | ⟨-, -, hs⟩
        · omega
        · exact hspoken c.tx e (hX ▸ he) (hlo.trans hhi) hs
        · exact hmono _ _ hs
      · exact hmono _ _ (h.met c hcd hmem hconf hlo)
  · -- the class does not conflict: nothing moves, and nothing of it had to be met
    have hskip : sweepClass d (reach, s) cls = (reach, s) := by
      simp [sweepClass, hc]
    rw [hskip]
    refine ⟨h.within, h.backed, h.far, h.reached, h.kept, h.joined, ?_⟩
    intro c hcd hmem hconf hlo
    rcases mem_cons.mp hmem with rfl | hmem
    · exact absurd hconf hc
    · exact h.met c hcd hmem hconf hlo

theorem Swept.step (hE : Equivalence E) {at_ : ℕ} {s : Sweep n} (h : Swept E done at_ s)
    (link : ∀ c ∈ done, c.Meets d → E c.tx d.tx) (self : d.lo ≤ d.hi)
    (before : ∀ c ∈ done, c.lo ≤ d.lo) (hat : at_ ≤ d.lo) :
    Swept E (done ++ [d]) d.lo (sweepClaim s d) := by
  have hstart : Draining E done d [] (d.hi, s) :=
    ⟨h.within, h.backed, le_rfl, .inl rfl,
      fun c hc => (h.kept c hc).imp (lt_of_lt_of_le · hat) .inl, h.joined,
      fun _ _ hmem => absurd hmem not_mem_nil⟩
  have hbefore : ∀ c ∈ done, c.lo ≤ d.hi := fun c hc => (before c hc).trans self
  have hend : ∀ (classes drained : List ConflictClass) (state : ℕ × Sweep n),
      Draining E done d drained state →
      Draining E done d (classes.reverse ++ drained) (classes.foldl (sweepClass d) state) := by
    intro classes
    induction classes with
    | nil => exact fun _ _ h => h
    | cons cls classes ih =>
      intro drained state hst
      have := ih (cls :: drained) _ (hst.step hE link hbefore cls)
      simpa using this
  have hdone := hend all [] (d.hi, s) hstart
  unfold sweepClaim
  generalize all.foldl (sweepClass d) (d.hi, s) = state at hdone ⊢
  obtain ⟨reach, s'⟩ := state
  have hmet : ∀ c ∈ done, c.Meets d → s'.component.Same c.tx d.tx := by
    intro c hc hm
    refine hdone.met c hc (by simpa using c.cls.mem_all) ?_ hm.2.2
    rw [conflictsWith_comm]
    exact hm.1
  have hmeet_symm : ∀ c : CollectionClaim n, d.Meets c → c.Meets d := fun c hm =>
    ⟨by rw [conflictsWith_comm]; exact hm.1, hm.2.2, hm.2.1⟩
  refine ⟨hdone.within, ?_, ?_, ?_⟩
  · intro cls e he
    rcases (s'.mem_push d.cls cls _ e).mp he with he | ⟨rfl, rfl⟩
    · obtain ⟨c, hc, hrest⟩ := hdone.backed cls e he
      exact ⟨c, mem_append_left _ hc, hrest⟩
    · rcases hdone.reached with hr | ⟨c, hc, hrest⟩
      · exact ⟨d, by simp, rfl, hr.symm, hE.refl _⟩
      · exact ⟨c, mem_append_left _ hc, hrest⟩
  · intro c hc
    rcases mem_append.mp hc with hc | hc
    · rcases hdone.kept c hc with hlt | ⟨e, he, hrest⟩ | ⟨hown, hrest⟩
      · exact .inl hlt
      · exact .inr ⟨e, (s'.mem_push ..).mpr (.inl he), hrest⟩
      · exact .inr ⟨_, (s'.mem_push ..).mpr (.inr ⟨hown, rfl⟩), hrest⟩
    · obtain rfl : c = d := mem_singleton.mp hc
      exact .inr ⟨_, (s'.mem_push ..).mpr (.inr ⟨rfl, rfl⟩), hdone.far, rfl⟩
  · intro c hc c' hc' hm
    rcases mem_append.mp hc with hcd | hcd <;> rcases mem_append.mp hc' with hcd' | hcd'
    · exact hdone.joined c hcd c' hcd' hm
    · obtain rfl : c' = d := mem_singleton.mp hcd'
      exact hmet c hcd hm
    · obtain rfl : c = d := mem_singleton.mp hcd
      exact (hmet c' hcd' (hmeet_symm c' hm)).symm
    · rw [mem_singleton.mp hcd, mem_singleton.mp hcd']
      rfl

theorem Swept.foldl (hE : Equivalence E) (rest : List (CollectionClaim n)) :
    ∀ {done : List (CollectionClaim n)} {at_ : ℕ} {s : Sweep n}, Swept E done at_ s →
      (∀ c ∈ done ++ rest, ∀ d ∈ done ++ rest, c.Meets d → E c.tx d.tx) →
      (∀ d ∈ rest, d.lo ≤ d.hi ∧ at_ ≤ d.lo ∧ ∀ c ∈ done, c.lo ≤ d.lo) →
      rest.Pairwise (fun c d => c.lo ≤ d.lo) →
      ∃ at', Swept E (done ++ rest) at' (rest.foldl sweepClaim s) := by
  induction rest with
  | nil => intro done at_ s h _ _ _; exact ⟨at_, by simpa using h⟩
  | cons d rest ih =>
    intro done at_ s h link bounds sorted
    obtain ⟨hd, hat, hbefore⟩ := bounds d mem_cons_self
    obtain ⟨hfirst, hsorted⟩ := pairwise_cons.mp sorted
    have hstep := h.step hE (fun c hc hm => link c (by simp [hc]) d (by simp) hm) hd hbefore hat
    have hassoc : done ++ d :: rest = done ++ [d] ++ rest := by simp
    rw [hassoc] at link ⊢
    refine ih hstep link (fun e he => ?_) hsorted
    obtain ⟨he1, -, he3⟩ := bounds e (mem_cons_of_mem _ he)
    refine ⟨he1, hfirst e he, fun c hc => ?_⟩
    rcases mem_append.mp hc with hc | hc
    · exact he3 c hc
    · rw [mem_singleton.mp hc]
      exact hfirst e he

variable {claims : List (CollectionClaim n)}

theorem sorted_claims (claims : List (CollectionClaim n)) :
    (claims.insertionSort fun a b => a.key ≤ b.key).Pairwise fun c d => c.lo ≤ d.lo := by
  have : IsTrans (CollectionClaim n) fun a b => a.key ≤ b.key := ⟨fun _ _ _ => le_trans⟩
  have : Std.Total fun a b : CollectionClaim n => a.key ≤ b.key := ⟨fun a b => le_total _ _⟩
  refine (pairwise_insertionSort (fun a b : CollectionClaim n => a.key ≤ b.key) claims).imp ?_
  intro c d h
  rcases Prod.Lex.le_iff.mp h with h | h
  · exact le_of_lt h
  · exact le_of_eq h.1

theorem sweepCollection_spec (hE : Equivalence E) (f : Forest n) (hf : ∀ i j, f.Same i j → E i j)
    (link : ∀ c ∈ claims, ∀ d ∈ claims, c.Meets d → E c.tx d.tx)
    (nonempty : ∀ c ∈ claims, c.lo ≤ c.hi) : (∀ i j, (sweepCollection claims f).Same i j → E i j) ∧
      ∀ c ∈ claims, ∀ d ∈ claims, c.Meets d → (sweepCollection claims f).Same c.tx d.tx := by
  have hmem : ∀ c, c ∈ claims.insertionSort (fun a b => a.key ≤ b.key) ↔ c ∈ claims := fun c =>
    (perm_insertionSort _ claims).mem_iff
  have hstart : Swept E [] 0 ⟨f, fun _ => []⟩ :=
    ⟨hf, fun _ _ he => absurd he not_mem_nil, fun _ hc => absurd hc not_mem_nil,
      fun _ hc => absurd hc not_mem_nil⟩
  obtain ⟨at', hswept⟩ := Swept.foldl hE (claims.insertionSort fun a b => a.key ≤ b.key) hstart
    (fun c hc d hd => link c ((hmem c).mp hc) d ((hmem d).mp hd))
    (fun d hd => ⟨nonempty d ((hmem d).mp hd), Nat.zero_le _,
      fun _ hc => absurd hc not_mem_nil⟩)
    (sorted_claims claims)
  exact ⟨hswept.within, fun c hc d hd =>
    hswept.joined c ((hmem c).mpr hc) d ((hmem d).mpr hd)⟩

theorem coarsens_sweepClass (d : CollectionClaim n) (state : ℕ × Sweep n) (cls : ConflictClass) :
    state.2.component.Coarsens (sweepClass d state cls).2.component := by
  obtain ⟨reach, s⟩ := state
  by_cases hc : d.cls.conflictsWith cls = true
  · obtain ⟨_, _, heq, -⟩ := sweepClass_cases d reach s cls hc
    rw [heq]
    exact s.component.coarsens_unionAll _ _
  · simp only [sweepClass, hc, Bool.not_false, if_true]
    exact fun _ _ h => h

theorem coarsens_sweepCollection (claims : List (CollectionClaim n)) (f : Forest n) :
    f.Coarsens (sweepCollection claims f) := by
  refine Forest.coarsens_foldl Sweep.component sweepClaim (fun s d => ?_) _ ⟨f, fun _ => []⟩
  exact Forest.coarsens_foldl (fun state : ℕ × Sweep n => state.2.component) (sweepClass d)
    (coarsens_sweepClass d) all (d.hi, s)

end Sweep

end HyperscaleVm.Kernel

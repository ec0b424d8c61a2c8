import HyperscaleVm.Effects.Meaning

/-!
# Which clauses fire, and what a declaration files of them (`effects/src/dsl.rs`)

A clause fires in a call when its guard and the guards of the loops around it hold, once
for each choice of elements of those loops.
-/

namespace HyperscaleVm.Effects
open List Library

structure Firing where
  body : List Clause
  clause : Clause
  bindings : List Value

def Clause.isLoop : Clause → Bool
  | .forEach _ _ _ => true
  | _ => false

inductive Filing where
  | access (effect : Effect) (holds : Option ResourceAddr) (reach : Option Reach)
  | condition (rule : Rule JudgedLeaf)
  | proven (claim : Claim)

section

variable (H : Hasher) (E : EvalInputs)

/-- `clause`, standing in `body` under `ρ`, fires. -/
inductive FiresIn : List Clause → Clause → List Value → Firing → Prop
  | leaf {body : List Clause} {clause : Clause} {ρ : List Value} :
      clause.isLoop = false → guardMeaning H E ρ clause.guard = some true →
      FiresIn body clause ρ ⟨body, clause, ρ⟩
  | loop {body inner : List Clause} {guard : Option Expr} {list : Expr} {clause : Clause}
      {ρ items : List Value} {item : Value} {l : Firing} :
      guardMeaning H E ρ guard = some true → loopItems H E ρ list = some items →
      item ∈ items → clause ∈ inner → FiresIn inner clause (item :: ρ) l →
      FiresIn body (.forEach guard list inner) ρ l

def Fires (clauses : List Clause) (l : Firing) : Prop :=
  ∃ clause ∈ clauses, FiresIn H E clauses clause [] l

namespace FiresIn

variable {H E} {body : List Clause} {c : Clause} {ρ : List Value} {l : Firing}

theorem mem_effects (h : FiresIn H E body c ρ l) : l.clause ∈ c.effects := by
  induction h with
  | leaf => exact Clause.mem_effects_self _
  | loop _ _ _ hc _ ih =>
    rw [Clause.effects]
    exact mem_cons_of_mem _ (Clause.mem_effectsAll.mpr ⟨_, hc, ih⟩)

theorem guard_holds (h : FiresIn H E body c ρ l) :
    guardMeaning H E l.bindings l.clause.guard = some true := by
  induction h with
  | leaf _ hg => exact hg
  | loop _ _ _ _ _ ih => exact ih

theorem sibling (h : FiresIn H E body c ρ l) (hc : c ∈ body) {c' : Clause} (hc' : c' ∈ l.body)
    (hl : c'.isLoop = false) (hg : guardMeaning H E l.bindings c'.guard = some true) :
    ∃ c'' ∈ body, FiresIn H E body c'' ρ ⟨l.body, c', l.bindings⟩ := by
  induction h with
  | leaf => exact ⟨c', hc', .leaf hl hg⟩
  | loop hguard hi hitem hin _ ih =>
    obtain ⟨c'', hc'', hf⟩ := ih hin hc' hg
    exact ⟨_, hc, .loop hguard hi hitem hc'' hf⟩

end FiresIn

namespace Fires

variable {H E} {clauses : List Clause} {l : Firing}

theorem mem_flat (h : Fires H E clauses l) : l.clause ∈ Clause.effectsAll clauses := by
  obtain ⟨c, hc, hf⟩ := h
  exact Clause.mem_effectsAll.mpr ⟨c, hc, hf.mem_effects⟩

theorem guard_holds (h : Fires H E clauses l) :
    guardMeaning H E l.bindings l.clause.guard = some true := by
  obtain ⟨c, hc, hf⟩ := h
  exact hf.guard_holds

theorem sibling (h : Fires H E clauses l) {c : Clause} (hc : c ∈ l.body) (hl : c.isLoop = false)
    (hg : guardMeaning H E l.bindings c.guard = some true) :
    Fires H E clauses ⟨l.body, c, l.bindings⟩ := by
  obtain ⟨top, htop, hf⟩ := h
  exact hf.sibling htop hc hl hg

theorem body_of_no_loops (h : Fires H E clauses l) (hno : ∀ c ∈ clauses, c.isLoop = false) :
    l.body = clauses := by
  obtain ⟨c, hc, hf⟩ := h
  cases hf with
  | leaf => rfl
  | loop => cases hno _ hc

end Fires

theorem effectsAll_of_no_loops {clauses : List Clause} (hno : ∀ c ∈ clauses, c.isLoop = false) :
    Clause.effectsAll clauses = clauses := by
  induction clauses with
  | nil => rfl
  | cons c cs ih =>
    rw [Clause.effectsAll, ih fun c' hc' => hno c' (mem_cons_of_mem c hc')]
    have := hno c mem_cons_self
    cases c with
    | forEach guard list body => cases this
    | _ => rfl

def holdsMeaning (ρ : List Value) : Option Expr → Option (Option ResourceAddr)
  | none => some none
  | some expr => do
    let resource ← expr.resourceMeaning H E ρ
    some (some resource)

def reachMeaning (ρ : List Value) (reach : Option GrantedBehaviour) (target : TargetExpr) :
    Option (Option Reach) :=
  match reach with
  | none => some none
  | some behaviour =>
    match keyingResource target with
    | none => none
    | some keyed => do
      let resource ← keyed.resourceMeaning H E ρ
      some (some ⟨behaviour, resource⟩)

def Clause.filings (ρ : List Value) : Clause → Option (List Filing)
  | .effect _ target mode denomination reach => do
    let evaluated ← target.meaning H E ρ
    let mode ← mode.meaning H E ρ
    let holds ← holdsMeaning H E ρ denomination
    let reach ← reachMeaning H E ρ reach target
    some [.access ⟨evaluated, mode⟩ holds reach]
  | .requires _ rule => do
    let judged ← rule.mapLeaves (RuleLeaf.meaning H E ρ)
    some [.condition judged]
  | .proves _ claim => do
    let value ← claim.meaning H E ρ
    let claim ← (asClaim value).toOption
    some (.proven claim :: claim.widened.toList.map .proven)
  | .forEach _ _ _ => none

def Firing.files (l : Firing) (f : Filing) : Prop :=
  ∃ fs, l.clause.filings H E l.bindings = some fs ∧ f ∈ fs

end

def Declaration.files (d : Declaration) : Filing → Prop
  | .access effect holds reach =>
    ∃ a ∈ d.ordered, effect = a.effect ∧ holds = a.holds ∧ reach = a.reach
  | .condition rule => ∃ c ∈ d.conditions, rule = c.rule
  | .proven claim => claim ∈ d.proves

def Declaration.Covered (d : Declaration) : Prop :=
  ∀ target kind, d.set.declares target kind ↔
    ∃ a ∈ d.ordered, target = a.effect.target ∧ kind = a.effect.mode.kind

def Declaration.Told (d : Declaration) : Prop :=
  d.Covered ∧ ∀ a ∈ d.ordered, a.clause.isSome = true

structure Declaration.SameFilings (d d' : Declaration) : Prop where
  ordered : d.ordered = d'.ordered
  conditions : d.conditions = d'.conditions
  proves : d.proves = d'.proves
  set : d.set = d'.set

section

variable (H : Hasher) (E : EvalInputs)

structure Extends (P : Firing → Prop) (w w' : Walk) : Prop where
  files : ∀ f, w'.out.files f ↔ w.out.files f ∨ ∃ l, P l ∧ l.files H E f
  evaluable : ∀ l, P l → ∃ fs, l.clause.filings H E l.bindings = some fs
  told : w.out.Told → w'.out.Told

end

namespace Extends

variable {H : Hasher} {E : EvalInputs} {P Q : Firing → Prop} {w w₁ w₂ : Walk}

theorem of_same (hs : w₁.out.SameFilings w.out) (hP : ∀ l, ¬P l) : Extends H E P w w₁ where
  files f := by
    have h : ¬∃ l, P l ∧ l.files H E f := fun ⟨l, hl, _⟩ => hP l hl
    cases f <;> simp only [Declaration.files, hs.ordered, hs.conditions, hs.proves, h, or_false]
  evaluable l hl := (hP l hl).elim
  told h := by
    unfold Declaration.Told Declaration.Covered at h ⊢
    rwa [hs.set, hs.ordered]

theorem trans (h₁ : Extends H E P w w₁) (h₂ : Extends H E Q w₁ w₂) :
    Extends H E (fun l => P l ∨ Q l) w w₂ where
  files f := by
    rw [h₂.files, h₁.files, or_assoc]
    simp only [or_and_right, exists_or]
  evaluable l hl := hl.elim (h₁.evaluable l) (h₂.evaluable l)
  told h := h₂.told (h₁.told h)

theorem congr (h : Extends H E P w w₁) (hPQ : ∀ l, P l ↔ Q l) : Extends H E Q w w₁ := by
  obtain rfl : P = Q := funext fun l => propext (hPQ l)
  exact h

theorem of_firing {l : Firing} {fs : List Filing} (hl : l.clause.filings H E l.bindings = some fs)
    (hf : ∀ f, w₁.out.files f ↔ w.out.files f ∨ f ∈ fs) (ht : w.out.Told → w₁.out.Told) :
    Extends H E (· = l) w w₁ where
  files f := by
    rw [hf]
    simp only [exists_eq_left, Firing.files, hl, Option.some.injEq, exists_eq_left']
  evaluable _ := fun h => ⟨fs, h ▸ hl⟩
  told := ht

end Extends

variable (w : Walk)

theorem filed_same (depth : ℕ) (taken : Bool) : (w.filed depth taken).out.SameFilings w.out := by
  unfold Walk.filed
  dsimp only
  split <;> exact ⟨rfl, rfl, rfl, rfl⟩

theorem expanded_same (depth index : ℕ) (rows : List (List (Option ℕ))) :
    (w.expanded depth index rows).out.SameFilings w.out := by
  unfold Walk.expanded
  split <;> exact ⟨rfl, rfl, rfl, rfl⟩

theorem spanned_same (start : ℕ) : (w.spanned start).out.SameFilings w.out :=
  ⟨rfl, rfl, rfl, rfl⟩

theorem skipped_same (depth index : ℕ) (c : Clause) :
    (w.skipped depth index c).out.SameFilings w.out := by
  cases c with
  | forEach guard list body => exact expanded_same _ _ _ _
  | effect | requires | proves => exact ⟨rfl, rfl, rfl, rfl⟩

theorem files_push (a : DeclaredAccess) (set : EffectSet) (f : Filing) :
    (w.push a set).out.files f ↔ w.out.files f ∨ f ∈ [Filing.access a.effect a.holds a.reach] := by
  cases f with
  | access effect holds reach =>
    simp only [Walk.push, Declaration.files, mem_append, mem_singleton, or_and_right,
      exists_or, exists_eq_left, Filing.access.injEq]
  | condition | proven => simp [Walk.push, Declaration.files]

theorem told_push {w : Walk} {a : DeclaredAccess} {set : EffectSet} {width : ℕ} {moved : Bool}
    (hs : w.out.set.insertBounded a.effect width = some (set, moved)) (h : w.out.Told)
    (hclause : a.clause.isSome = true) : (w.push a set).out.Told := by
  refine ⟨fun target kind => ?_, fun access haccess => ?_⟩
  · simp only [Walk.push, EffectSet.declares_insertBounded hs, h.1 target kind, mem_append,
      mem_singleton, or_and_right, exists_or, exists_eq_left]
  · rcases mem_append.mp haccess with hbefore | hpushed
    · exact h.2 access hbefore
    · rw [mem_singleton.mp hpushed]
      exact hclause

theorem files_require (rule : Rule JudgedLeaf) (f : Filing) :
    (w.require rule).out.files f ↔ w.out.files f ∨ f ∈ [Filing.condition rule] := by
  cases f with
  | access | proven => simp [Walk.require, Declaration.files]
  | condition rule =>
    simp only [Walk.require, Declaration.files, mem_append, mem_singleton, or_and_right,
      exists_or, exists_eq_left, Filing.condition.injEq]

theorem files_prove (claim : Claim) (f : Filing) : (w.prove claim).out.files f ↔
      w.out.files f ∨ f ∈ Filing.proven claim :: claim.widened.toList.map .proven := by
  cases f with
  | access | condition | proven => simp [Walk.prove, Declaration.files]

theorem Walk.run_ok {α : Type} {w w' : Walk} {x : Metered α} {a : α}
    (h : w.run x = .ok (a, w')) : ∃ m, x w.meter = .ok (a, m) ∧ w' = { w with meter := m } := by
  obtain ⟨⟨a', m⟩, hx, h⟩ := bind_ok.mp h
  cases h
  exact ⟨m, hx, rfl⟩

theorem Walk.run_yields {α β : Type} {w w' : Walk} {x : Metered α} {a : α} {π : α → β}
    {o : Option β} (hx : Yields x π o) (h : w.run x = .ok (a, w')) :
    o = some (π a) ∧ w'.out = w.out := by
  obtain ⟨m, hm, rfl⟩ := Walk.run_ok h
  exact ⟨hx _ _ _ hm, rfl⟩

section

variable {H : Hasher} {E : EvalInputs} {ρ : List Value} {w w' : Walk}

theorem evalHolds_meaning (denomination : Option Expr) :
    Yields (evalHolds H E ρ denomination) id (holdsMeaning H E ρ denomination) := by
  cases denomination with
  | none => exact .pure
  | some expr => exact .bind (evalDenomination_meaning H E ρ expr) fun _ => .pure

theorem evalReach_meaning (reach : Option GrantedBehaviour) (target : TargetExpr) :
    Yields (evalReach H E ρ reach target) id (reachMeaning H E ρ reach target) := by
  cases reach with
  | none => exact .pure
  | some behaviour =>
    unfold evalReach reachMeaning
    cases keyingResource target with
    | none => exact .fail fun m p h => by cases h
    | some keyed => exact .bind (evalDenomination_meaning H E ρ keyed) fun _ => .pure

mutual

theorem mapLeaves_meaning (rule : RuleExpr) :
    Yields (rule.mapLeaves (evalLeaf H E ρ)) id (rule.mapLeaves (RuleLeaf.meaning H E ρ)) := by
  cases rule with
  | require leaf =>
    rw [Rule.mapLeaves, Rule.mapLeaves]
    exact .bind (evalLeaf_meaning H E ρ leaf) fun _ => .pure
  | countOf count rules =>
    rw [Rule.mapLeaves, Rule.mapLeaves]
    exact .bind (mapLeavesAll_meaning rules) fun _ => .pure

theorem mapLeavesAll_meaning (rules : List RuleExpr) :
    Yields (Rule.mapLeavesAll (evalLeaf H E ρ) rules) id
      (Rule.mapLeavesAll (RuleLeaf.meaning H E ρ) rules) := by
  cases rules with
  | nil => exact .pure
  | cons rule rules =>
    rw [Rule.mapLeavesAll, Rule.mapLeavesAll]
    exact .bind (mapLeaves_meaning rule) fun _ => .bind (mapLeavesAll_meaning rules) fun _ => .pure

end

variable (body : List Clause)

theorem evalEffect_extends (guard : Option Expr) {number : ℕ}
    {target : TargetExpr} {mode : ModeExpr} {denomination : Option Expr}
    {reach : Option GrantedBehaviour}
    (h : evalEffect H E ρ number target mode denomination reach w = .ok w') :
    Extends H E (· = ⟨body, .effect guard target mode denomination reach, ρ⟩) w w' := by
  obtain ⟨⟨⟨effect, holds, reached⟩, w₁⟩, hrun, h⟩ := bind_ok.mp h
  obtain ⟨hfile, hout⟩ := Walk.run_yields (π := fun x => [Filing.access x.1 x.2.1 x.2.2])
    (o := Clause.filings H E ρ (.effect guard target mode denomination reach)) (by
      exact .bind (evalTarget_meaning H E ρ target) fun _ => .bind (evalMode_meaning H E ρ mode)
        fun _ => .drop fun _ => .bind (evalHolds_meaning denomination) fun _ =>
        .bind (evalReach_meaning reach target) fun _ => .pure) hrun
  dsimp only at h
  split at h
  · cases h
  · rename_i set moved hset
    cases h
    refine .of_firing hfile (fun f => ?_) fun ht => told_push hset (hout ▸ ht) rfl
    rw [files_push, hout]

theorem evalRequires_extends (guard : Option Expr) {rule : RuleExpr}
    (h : evalRequires H E ρ rule w = .ok w') :
    Extends H E (· = ⟨body, .requires guard rule, ρ⟩) w w' := by
  obtain ⟨⟨judged, w₁⟩, hrun, h⟩ := bind_ok.mp h
  cases h
  have hy : Yields (do charge; evalCondition H E ρ rule) (fun j => [Filing.condition j])
      (Clause.filings H E ρ (.requires guard rule)) :=
    .drop fun _ => .map (mapLeaves_meaning rule)
  obtain ⟨hfile, hout⟩ := Walk.run_yields hy hrun
  refine .of_firing hfile (fun f => ?_) fun ht => ?_
  · rw [files_require, hout]
  · rw [← hout] at ht
    exact ht

theorem evalProves_extends (guard : Option Expr) {claim : Expr}
    (h : evalProves H E ρ claim w = .ok w') :
    Extends H E (· = ⟨body, .proves guard claim, ρ⟩) w w' := by
  obtain ⟨⟨proven, w₁⟩, hrun, h⟩ := bind_ok.mp h
  have hy : Yields (do charge; evalProven H E ρ claim)
      (fun p => Filing.proven p :: p.widened.toList.map .proven)
      (Clause.filings H E ρ (.proves guard claim)) :=
    .drop fun _ => .bind (evalExpr_meaning H E ρ 0 claim) fun _ => .bind .free fun p => by
      split
      · exact .fail fun m q h => by cases h
      · exact .pure
  obtain ⟨hfile, hout⟩ := Walk.run_yields hy hrun
  dsimp only at h
  split at h
  · cases h
  cases h
  refine .of_firing hfile (fun f => ?_) fun ht => ?_
  · rw [files_prove, hout]
  · rw [← hout] at ht
    exact ht

theorem evalItems_meaning (list : Expr) :
    Yields (evalItems H E ρ list) id (loopItems H E ρ list) := by
  refine .bind (evalExpr_meaning H E ρ 0 list) fun cow =>
    .known .forced (.keep .free fun items => ?_)
  intro m a m' h
  split at h
  · cases h
  · cases h
    rfl

variable {body} {c : Clause} {l : Firing}

theorem not_firesIn (h : guardMeaning H E ρ c.guard = some false) : ¬FiresIn H E body c ρ l := by
  intro hf
  cases hf with
  | leaf _ hg => simp [hg] at h
  | loop hg => simp [Clause.guard, hg] at h

theorem firesIn_leaf (hc : c.isLoop = false)
    (hg : guardMeaning H E ρ c.guard = some true) : FiresIn H E body c ρ l ↔ l = ⟨body, c, ρ⟩ := by
  constructor
  · intro hf
    cases hf with
    | leaf => rfl
    | loop => cases hc
  · rintro rfl
    exact .leaf hc hg

theorem firesIn_loop {inner : List Clause} {guard : Option Expr} {list : Expr} {items : List Value}
    (hg : guardMeaning H E ρ guard = some true) (hi : loopItems H E ρ list = some items) :
    FiresIn H E body (.forEach guard list inner) ρ l ↔
      ∃ item ∈ items, ∃ c ∈ inner, FiresIn H E inner c (item :: ρ) l := by
  constructor
  · intro hf
    cases hf with
    | leaf hc => cases hc
    | loop _ hi' hitem hc hl =>
      cases hi.symm.trans hi'
      exact ⟨_, hitem, _, hc, hl⟩
  · rintro ⟨item, hitem, c, hc, hl⟩
    exact .loop hg hi hitem hc hl

theorem forItems_extends {pass : Value → Walk → Except EvalError (Walk × List (Option ℕ))}
    {P : Value → Firing → Prop}
    (hpass : ∀ item w₁ w₂ sites, pass item w₁ = .ok (w₂, sites) → Extends H E (P item) w₁ w₂)
    {lines : ℕ} {items : List Value} {rows rows' : List (List (Option ℕ))}
    (h : forItems pass lines items w rows = .ok (w', rows')) :
    Extends H E (fun l => ∃ item ∈ items, P item l) w w' := by
  induction items generalizing w rows with
  | nil =>
    cases h
    exact .of_same ⟨rfl, rfl, rfl, rfl⟩ (by simp)
  | cons item items ih =>
    rw [forItems] at h
    obtain ⟨⟨⟨⟩, w₁⟩, hrun, ⟨w₂, sites⟩, hp, h⟩ := binds_ok.mp h
    obtain ⟨m, -, hw⟩ := Walk.run_ok hrun
    have h₁ : Extends H E (fun _ => False) w { w₁ with preorder := lines } := by
      subst hw
      exact .of_same ⟨rfl, rfl, rfl, rfl⟩ fun _ => id
    refine ((h₁.trans (hpass item _ _ _ hp)).trans (ih h)).congr fun l => ?_
    simp

mutual

theorem evalClause_extends (index depth : ℕ) (ρ : List Value) (siblings : List Clause) (c : Clause)
    (w w' : Walk) (h : evalClause H E index depth ρ c w = .ok w') :
    Extends H E (FiresIn H E siblings c ρ) w w' := by
  rw [evalClause.eq_def] at h
  split at h
  · cases h
  obtain ⟨⟨taken, w₁⟩, hrun, h⟩ := bind_ok.mp h
  obtain ⟨hg, hout⟩ := Walk.run_yields (evalGuard_meaning H E ρ c.guard) hrun
  have hfiled : Extends H E (fun _ => False) w (w₁.filed depth taken) :=
    .of_same (hout ▸ filed_same w₁ depth taken) fun _ => id
  dsimp only at h
  split at h
  · rename_i ht
    obtain rfl : taken = true := ht
    cases c with
    | effect guard target mode denomination reach =>
      refine (hfiled.trans (evalEffect_extends siblings guard h)).congr fun l => ?_
      rw [firesIn_leaf rfl hg, false_or]
    | requires guard rule =>
      refine (hfiled.trans (evalRequires_extends siblings guard h)).congr fun l => ?_
      rw [firesIn_leaf rfl hg, false_or]
    | proves guard claim =>
      refine (hfiled.trans (evalProves_extends siblings guard h)).congr fun l => ?_
      rw [firesIn_leaf rfl hg, false_or]
    | forEach guard list inner =>
      obtain ⟨⟨items, w₂⟩, hitems, ⟨w₃, rows⟩, hloop, h⟩ := binds_ok.mp h
      obtain ⟨hi, hout₂⟩ := Walk.run_yields (evalItems_meaning list) hitems
      have hbody :=
        forItems_extends (P := fun item l => ∃ c ∈ inner, FiresIn H E inner c (item :: ρ) l)
        (fun item w₁ w₂ sites hp =>
          evalExpansion_extends index (depth + 1) (item :: ρ) inner inner w₁ w₂ sites hp) hloop
      cases h
      have hitems' : Extends H E (fun _ => False) (w₁.filed depth true) w₂ :=
        .of_same (hout₂ ▸ ⟨rfl, rfl, rfl, rfl⟩) fun _ => id
      have hlast (resume : ℕ) : Extends H E (fun _ => False) w₃
          (({ w₃ with preorder := resume } : Walk).expanded depth index rows) :=
        .of_same (expanded_same { w₃ with preorder := resume } depth index rows) fun _ => id
      refine (((hfiled.trans hitems').trans hbody).trans (hlast _)).congr fun l => ?_
      have hl := @firesIn_loop H E ρ siblings l inner guard list items hg hi
      rw [hl]
      simp
  · rename_i ht
    obtain rfl : taken = false := Bool.eq_false_of_not_eq_true ht
    cases h
    exact (hfiled.trans (.of_same (skipped_same _ depth index c) fun _ => id)).congr fun l =>
      ⟨fun h => h.elim False.elim False.elim, fun h => (not_firesIn hg h).elim⟩

theorem evalExpansion_extends (index depth : ℕ) (ρ : List Value) (siblings : List Clause)
    (body : List Clause) (w w' : Walk) (sites : List (Option ℕ))
    (h : evalExpansion H E index depth ρ body w = .ok (w', sites)) :
    Extends H E (fun l => ∃ c ∈ body, FiresIn H E siblings c ρ l) w w' := by
  cases body with
  | nil =>
    cases h
    exact .of_same ⟨rfl, rfl, rfl, rfl⟩ (by simp)
  | cons c cs =>
    rw [evalExpansion] at h
    obtain ⟨w₁, hc, ⟨w₂, sites'⟩, hcs, h⟩ := binds_ok.mp h
    cases h
    refine ((evalClause_extends index depth ρ siblings c w w₁ hc).trans
      (evalExpansion_extends index depth ρ siblings cs w₁ _ _ hcs)).congr fun l => ?_
    simp

end

theorem evalTop_extends (clauses : List Clause) {index : ℕ}
    (h : evalTop H E index c w = .ok w') : Extends H E (FiresIn H E clauses c []) w w' := by
  unfold evalTop at h
  split at h
  · obtain ⟨w₁, hc, h⟩ := bind_ok.mp h
    cases h
    refine ((evalClause_extends index 0 [] clauses c w w₁ hc).trans
      (.of_same (spanned_same w₁ _) fun _ => id)).congr fun l => ?_
    rw [or_false]
  · cases h

theorem foldlM_extends (clauses : List Clause) (rest : List (Clause × ℕ))
    (h : rest.foldlM (fun w (c, index) => evalTop H E index c w) w = Except.ok w') :
    Extends H E (fun l => ∃ c ∈ rest.map Prod.fst, FiresIn H E clauses c [] l) w w' := by
  induction rest generalizing w with
  | nil =>
    cases h
    exact .of_same ⟨rfl, rfl, rfl, rfl⟩ (by simp)
  | cons p rest ih =>
    rw [foldlM_cons] at h
    obtain ⟨w₁, hp, h⟩ := bind_ok.mp h
    refine ((evalTop_extends clauses hp).trans (ih h)).congr fun l => ?_
    simp

end

section

variable {H : Hasher} {E : EvalInputs} {clauses : List Clause} {envelope spent : ℕ}
  {d : Declaration}

structure Clause.Declares (H : Hasher) (E : EvalInputs) (ρ : List Value) (c : Clause)
    (guard : Option Expr) (target : TargetExpr) (mode : ModeExpr) (denomination : Option Expr)
    (reach : Option GrantedBehaviour) (a : DeclaredAccess) : Prop where
  clause_eq : c = .effect guard target mode denomination reach
  target_eq : target.meaning H E ρ = some a.effect.target
  mode_eq : mode.meaning H E ρ = some a.effect.mode
  holds_eq : holdsMeaning H E ρ denomination = some a.holds
  reach_eq : reachMeaning H E ρ reach target = some a.reach

theorem holdsMeaning_isSome {ρ : List Value} {denomination : Option Expr}
    {holds : Option ResourceAddr} (h : holdsMeaning H E ρ denomination = some holds) :
    holds.isSome = denomination.isSome := by
  cases denomination with
  | none =>
    cases h
    rfl
  | some expr =>
    simp only [holdsMeaning, do_some, Option.some.injEq] at h
    obtain ⟨r, -, rfl⟩ := h
    rfl

theorem reachMeaning_isSome {ρ : List Value} {reach : Option GrantedBehaviour}
    {target : TargetExpr} {r : Option Reach} (h : reachMeaning H E ρ reach target = some r) :
    r.isSome = reach.isSome := by
  cases reach with
  | none =>
    cases h
    rfl
  | some behaviour =>
    unfold reachMeaning at h
    split at h
    · cases ‹some behaviour = none›
    split at h
    · cases h
    · simp only [do_some, Option.some.injEq] at h
      obtain ⟨_, -, rfl⟩ := h
      rfl

variable (h : evaluateDeclaration H E clauses envelope = .ok (d, spent))

include h

theorem evaluateDeclaration_extends :
    ∃ meter preorder, Extends H E (Fires H E clauses) ⟨.empty, 0, ⟨0, 0, envelope⟩⟩
      ⟨d, preorder, meter⟩ := by
  obtain ⟨w, hw, h⟩ := bind_ok.mp h
  cases h
  refine ⟨w.meter, w.preorder, ?_⟩
  have := foldlM_extends clauses clauses.zipIdx hw
  rwa [zipIdx_map_fst] at this

theorem files_iff (f : Filing) :
    d.files f ↔ ∃ l, Fires H E clauses l ∧ l.files H E f := by
  obtain ⟨meter, preorder, hx⟩ := evaluateDeclaration_extends h
  rw [show d.files f ↔ _ from hx.files f]
  have : ¬Declaration.empty.files f := by
    cases f <;> simp [Declaration.empty, Declaration.files]
  simp [this]

theorem filings_of_fires {l : Firing} (hl : Fires H E clauses l) :
    ∃ fs, l.clause.filings H E l.bindings = some fs := by
  obtain ⟨meter, preorder, hx⟩ := evaluateDeclaration_extends h
  exact hx.evaluable l hl

theorem fires_of_access {a : DeclaredAccess} (ha : a ∈ d.ordered) :
    ∃ l guard target mode denomination reach, Fires H E clauses l ∧
      l.clause.Declares H E l.bindings guard target mode denomination reach a := by
  have hfile : d.files (.access a.effect a.holds a.reach) := ⟨a, ha, rfl, rfl, rfl⟩
  obtain ⟨l, hl, fs, hfs, hmem⟩ := (files_iff h _).mp hfile
  cases hc : l.clause with
  | forEach | requires | proves =>
    simp only [hc, Clause.filings, do_some] at hfs
    grind
  | effect guard target mode denomination reach =>
    simp only [hc, Clause.filings, do_some, Option.some.injEq] at hfs
    obtain ⟨t, ht, m, hm, holds, hh, r, hr, rfl⟩ := hfs
    simp only [mem_singleton, Filing.access.injEq] at hmem
    obtain ⟨heffect, hholds, hreach⟩ := hmem
    refine ⟨l, guard, target, mode, denomination, reach, hl, ?_⟩
    exact ⟨hc, by rw [ht, heffect], by rw [hm, heffect], by rw [hh, hholds], by rw [hr, hreach]⟩

theorem access_of_fires {l : Firing} (hl : Fires H E clauses l) {guard : Option Expr}
    {target : TargetExpr}
    {mode : ModeExpr} {denomination : Option Expr} {reach : Option GrantedBehaviour}
    (hc : l.clause = .effect guard target mode denomination reach) :
    ∃ a ∈ d.ordered, l.clause.Declares H E l.bindings guard target mode denomination reach a := by
  obtain ⟨fs, hfs⟩ := filings_of_fires h hl
  have hfs' := hfs
  simp only [hc, Clause.filings, do_some, Option.some.injEq] at hfs'
  obtain ⟨t, ht, m, hm, holds, hh, r, hr, rfl⟩ := hfs'
  obtain ⟨a, ha, heffect, rfl, rfl⟩ := (files_iff h (.access ⟨t, m⟩ holds r)).mpr
    ⟨l, hl, _, hfs, mem_singleton.mpr rfl⟩
  refine ⟨a, ha, hc, ?_, ?_, hh, hr⟩
  · rw [ht, ← heffect]
  · rw [hm, ← heffect]

theorem fires_of_condition {c : Condition} (hc : c ∈ d.conditions) :
    ∃ l guard rule, Fires H E clauses l ∧ l.clause = .requires guard rule ∧
      rule.mapLeaves (RuleLeaf.meaning H E l.bindings) = some c.rule := by
  have hfile : d.files (.condition c.rule) := ⟨c, hc, rfl⟩
  obtain ⟨l, hl, fs, hfs, hmem⟩ := (files_iff h _).mp hfile
  cases hclause : l.clause with
  | forEach | effect | proves =>
    simp only [hclause, Clause.filings, do_some] at hfs
    grind
  | requires guard rule =>
    simp only [hclause, Clause.filings, do_some, Option.some.injEq] at hfs
    obtain ⟨judged, hj, rfl⟩ := hfs
    simp only [mem_singleton, Filing.condition.injEq] at hmem
    exact ⟨l, guard, rule, hl, hclause, by rw [hmem]; exact hj⟩

theorem condition_of_fires {l : Firing} (hl : Fires H E clauses l) {guard : Option Expr}
    {rule : RuleExpr} (hc : l.clause = .requires guard rule) :
    ∃ c ∈ d.conditions, rule.mapLeaves (RuleLeaf.meaning H E l.bindings) = some c.rule := by
  obtain ⟨fs, hfs⟩ := filings_of_fires h hl
  have hfs' := hfs
  simp only [hc, Clause.filings, do_some, Option.some.injEq] at hfs'
  obtain ⟨judged, hj, rfl⟩ := hfs'
  obtain ⟨c, hc, rfl⟩ := (files_iff h (.condition judged)).mpr
    ⟨l, hl, _, hfs, mem_singleton.mpr rfl⟩
  exact ⟨c, hc, hj⟩

theorem told_of_eval : d.Told := by
  obtain ⟨meter, preorder, hx⟩ := evaluateDeclaration_extends h
  refine hx.told ⟨fun target kind => ?_, fun _ hnone => absurd hnone not_mem_nil⟩
  simp [Declaration.empty, EffectSet.declares, EffectSet.new]

theorem covered_of_eval : d.Covered := (told_of_eval h).1

end

end HyperscaleVm.Effects

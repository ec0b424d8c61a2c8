import Mathlib.Data.Nat.Bitwise
import Mathlib.Data.Set.Function

/-!
# Trees of padded pairs
-/

namespace HyperscaleVm.Library
open List Option

variable {α : Type}

def padded (pad : α) (level : List α) : List α :=
  if level.length % 2 = 1 then level ++ [pad] else level

def twoByTwo : List α → List (α × α)
  | a :: b :: rest => (a, b) :: twoByTwo rest
  | _ => []

def pairsOf (pad : α) (level : List α) : List (α × α) := twoByTwo (padded pad level)

def joinLevel (join : α × α → α) (pad : α) (level : List α) : List α :=
  (pairsOf pad level).map join

def placed (position : ℕ) (current sibling : α) : α × α :=
  if position % 2 = 0 then (current, sibling) else (sibling, current)

/-- What is left of a level, joined until one value stands; `steps` bounds the levels. -/
def treeTop (join : α × α → α) (pad : α) : ℕ → List α → Option α
  | 0, level => level.head?
  | steps + 1, level =>
    if 1 < level.length then treeTop join pad steps (joinLevel join pad level) else level.head?

def treePath (join : α × α → α) (pad : α) : ℕ → List α → ℕ → Option (List α)
  | 0, _, _ => some []
  | steps + 1, level, position =>
    if 1 < level.length then do
      let sibling ← (padded pad level)[position ^^^ 1]?
      let siblings ← treePath join pad steps (joinLevel join pad level) (position / 2)
      some (sibling :: siblings)
    else some []

def treeWalk (join : α × α → α) : ℕ → ℕ → ℕ → α → List α → Option α
  | 0, _, _, current, siblings => if siblings.isEmpty then some current else none
  | steps + 1, width, position, current, siblings =>
    if 1 < width then
      match siblings with
      | [] => none
      | sibling :: rest =>
        treeWalk join steps ((width + 1) / 2) (position / 2)
          (join (placed position current sibling)) rest
    else if siblings.isEmpty then some current else none

def treePairs (join : α × α → α) (pad : α) : ℕ → List α → List (α × α)
  | 0, _ => []
  | steps + 1, level =>
    if 1 < level.length then
      pairsOf pad level ++ treePairs join pad steps (joinLevel join pad level)
    else []

def walkPairs (join : α × α → α) : ℕ → ℕ → ℕ → α → List α → List (α × α)
  | 0, _, _, _, _ => []
  | steps + 1, width, position, current, siblings =>
    if 1 < width then
      match siblings with
      | [] => []
      | sibling :: rest => placed position current sibling ::
          walkPairs join steps ((width + 1) / 2) (position / 2)
            (join (placed position current sibling)) rest
    else []

theorem map_injOn {β : Type} {f : α → β} {S : Set α} (hf : Set.InjOn f S) {l m : List α}
    (hl : ∀ a ∈ l, a ∈ S) (hm : ∀ a ∈ m, a ∈ S) (h : l.map f = m.map f) : l = m := by
  have hlength : l.length = m.length := by simpa using congrArg List.length h
  refine ext_getElem hlength fun i hi hi' => ?_
  have heq : f l[i] = f m[i] := by
    have := getElem_of_eq h (by simpa using hi : i < (l.map f).length)
    simpa using this
  exact hf (hl _ (getElem_mem hi)) (hm _ (getElem_mem hi')) heq

theorem twoByTwo_getElem? (l : List α) (i : ℕ) (a b : α) :
    (twoByTwo l)[i]? = some (a, b) ↔ l[2 * i]? = some a ∧ l[2 * i + 1]? = some b := by
  induction l using twoByTwo.induct generalizing i with
  | case1 x y rest ih =>
    cases i with
    | zero => simp [twoByTwo]
    | succ i =>
      have hnext : 2 * (i + 1) = 2 * i + 1 + 1 := by omega
      rw [twoByTwo, getElem?_cons_succ, hnext]
      simpa using ih i
  | case2 l hshort =>
    have hlength : l.length ≤ 1 := by
      match l, hshort with
      | [], _ => simp
      | [x], _ => simp
      | x :: y :: rest, hshort => exact absurd rfl (hshort x y rest)
    have hnil : twoByTwo l = [] := by
      match l, hlength with
      | [], _ => simp [twoByTwo]
      | [x], _ => simp [twoByTwo]
    have hout : l[2 * i + 1]? = none := getElem?_eq_none (by omega)
    simp [hnil, hout]

theorem length_twoByTwo (l : List α) : (twoByTwo l).length = l.length / 2 := by
  induction l using twoByTwo.induct with
  | case1 x y rest ih =>
    simp only [twoByTwo, length_cons, ih]
    omega
  | case2 l hshort =>
    match l, hshort with
    | [], _ => simp [twoByTwo]
    | [x], _ => simp [twoByTwo]
    | x :: y :: rest, hshort => exact absurd rfl (hshort x y rest)

variable (pad : α)

theorem length_padded (level : List α) :
    (padded pad level).length = 2 * ((level.length + 1) / 2) := by
  unfold padded
  split
  · rw [length_append, length_singleton]
    omega
  · omega

@[simp] theorem length_joinLevel (join : α × α → α) (pad : α) (level : List α) :
    (joinLevel join pad level).length = (level.length + 1) / 2 := by
  rw [joinLevel, length_map, pairsOf, length_twoByTwo, length_padded]
  omega

variable {position : ℕ}

theorem padded_getElem? {level : List α}
    (h : position < level.length) : (padded pad level)[position]? = level[position]? := by
  unfold padded
  split
  · exact getElem?_append_left h
  · rfl

theorem pairsOf_at {level : List α} {current : α} (h : level[position]? = some current) :
    ∃ sibling, (padded pad level)[position ^^^ 1]? = some sibling ∧
      (pairsOf pad level)[position / 2]? = some (placed position current sibling) := by
  obtain ⟨hlt, -⟩ := List.getElem?_eq_some_iff.mp h
  have hlength := length_padded pad level
  have hself : (padded pad level)[position]? = some current := (padded_getElem? pad hlt).trans h
  rcases Nat.mod_two_eq_zero_or_one position with heven | hodd
  · -- a left member: its sibling is the next, which the padding supplies at the end
    have hnext : position + 1 < (padded pad level).length := by omega
    refine ⟨_, by rw [Nat.xor_one_of_even (Nat.even_iff.mpr heven)]; exact
      getElem?_eq_getElem hnext, ?_⟩
    have htwice : 2 * (position / 2) = position := by omega
    rw [placed, if_pos heven, pairsOf, twoByTwo_getElem?, htwice]
    exact ⟨hself, getElem?_eq_getElem hnext⟩
  · -- a right member: its sibling stands before it
    have hprev : position - 1 < (padded pad level).length := by omega
    refine ⟨_, by rw [Nat.xor_one_of_odd (Nat.odd_iff.mpr hodd)]; exact
      getElem?_eq_getElem hprev, ?_⟩
    have htwice : 2 * (position / 2) = position - 1 := by omega
    have hagain : position - 1 + 1 = position := by omega
    rw [placed, if_neg (by omega), pairsOf, twoByTwo_getElem?, htwice, hagain]
    exact ⟨getElem?_eq_getElem hprev, hself⟩

theorem placed_inj {a b c d : α} (h : placed position a b = placed position c d) :
    a = c ∧ b = d := by
  unfold placed at h
  split at h
  · exact Prod.mk.inj h
  · exact (Prod.mk.inj h).symm

theorem pairsOf_inj {l m : List α} (hlength : l.length = m.length)
    (h : pairsOf pad l = pairsOf pad m) : l = m := by
  refine ext_getElem hlength fun position hl hm => ?_
  obtain ⟨sibling, -, hpair⟩ := pairsOf_at pad (getElem?_eq_getElem hl)
  obtain ⟨sibling', -, hpair'⟩ := pairsOf_at pad (getElem?_eq_getElem hm)
  rw [h, hpair'] at hpair
  exact (placed_inj (some.inj hpair)).1.symm

section

variable {join : α × α → α} {pad : α} {steps : ℕ} {level : List α}

theorem treeTop_of_joined (h : 1 < level.length) :
    treeTop join pad (steps + 1) level = treeTop join pad steps (joinLevel join pad level) :=
  if_pos h

variable {position : ℕ} {current : α} {siblings : List α}

theorem treeWalk_of_joined {width : ℕ} {sibling : α} (h : 1 < width) :
    treeWalk join (steps + 1) width position current (sibling :: siblings) =
      treeWalk join steps ((width + 1) / 2) (position / 2)
        (join (placed position current sibling)) siblings := by
  rw [treeWalk, if_pos h]

theorem treeWalk_of_done {width : ℕ} (h : ¬ 1 < width) :
    treeWalk join (steps + 1) width position current siblings =
      if siblings.isEmpty then some current else none := by
  cases siblings with
  | nil | cons => rw [treeWalk, if_neg h]

theorem treeTop_isSome (join : α × α → α) (pad : α) (steps : ℕ) (hlevel : level ≠ []) :
    ∃ top, treeTop join pad steps level = some top := by
  induction steps generalizing level with
  | zero => exact ⟨level.head hlevel, head?_eq_some_head hlevel⟩
  | succ steps ih =>
    by_cases hmore : 1 < level.length
    · rw [treeTop_of_joined hmore]
      apply ih
      rw [ne_eq, ← length_eq_zero_iff, length_joinLevel]
      omega
    · exact ⟨level.head hlevel, (if_neg hmore).trans (head?_eq_some_head hlevel)⟩

theorem single_at (hone : ¬ 1 < level.length)
    (hposition : position < level.length) : level[position]? = level.head? := by
  have hzero : position = 0 := by omega
  rw [hzero, head?_eq_getElem?]

theorem treeWalk_treePath (join : α × α → α) (pad : α) (hsteps : level.length ≤ steps)
    (h : level[position]? = some current) :
    ∃ siblings, treePath join pad steps level position = some siblings ∧
      treeWalk join steps level.length position current siblings =
        treeTop join pad steps level := by
  obtain ⟨hlt, -⟩ := List.getElem?_eq_some_iff.mp h
  induction steps generalizing level position current with
  | zero => omega
  | succ steps ih =>
    by_cases hmore : 1 < level.length
    · obtain ⟨sibling, hsibling, hpair⟩ := pairsOf_at pad h
      have habove : (joinLevel join pad level)[position / 2]? =
          some (join (placed position current sibling)) := by
        rw [joinLevel, getElem?_map, hpair, map_some]
      have hwidth := length_joinLevel join pad level
      obtain ⟨siblings, hpath, hwalk⟩ := ih (by omega) habove (by omega)
      refine ⟨sibling :: siblings, ?_, ?_⟩
      · simp [treePath, hmore, hsibling, hpath]
      · rw [treeTop_of_joined hmore, ← hwalk, hwidth, treeWalk_of_joined hmore]
    · refine ⟨[], ?_, ?_⟩
      · rw [treePath, if_neg hmore]
      · rw [treeWalk_of_done hmore, treeTop, if_neg hmore, ← single_at hmore hlt, h]
        rfl

variable {S : Set (α × α)}

theorem treeWalk_pins (pad : α) (hjoin : Set.InjOn join S)
    {top : α} (hsteps : level.length ≤ steps) (hposition : position < level.length)
    (htree : ∀ pair ∈ treePairs join pad steps level, pair ∈ S)
    (hwalked : ∀ pair ∈ walkPairs join steps level.length position current siblings, pair ∈ S)
    (hwalk : treeWalk join steps level.length position current siblings = some top)
    (htop : treeTop join pad steps level = some top) :
    level[position]? = some current ∧ treePath join pad steps level position = some siblings := by
  induction steps generalizing level position current siblings with
  | zero => omega
  | succ steps ih =>
    by_cases hmore : 1 < level.length
    · rw [treePairs, if_pos hmore] at htree
      rw [treeTop_of_joined hmore] at htop
      cases siblings with
      | nil =>
        rw [treeWalk, if_pos hmore] at hwalk
        cases hwalk
      | cons sibling siblings =>
        rw [treeWalk_of_joined hmore] at hwalk
        rw [walkPairs, if_pos hmore] at hwalked
        have hwidth := length_joinLevel join pad level
        rw [← hwidth] at hwalk hwalked
        obtain ⟨habove, hpath⟩ := ih (by omega) (by omega)
          (fun pair hpair => htree pair (mem_append_right _ hpair))
          (fun pair hpair => hwalked pair (mem_cons_of_mem _ hpair)) hwalk htop
        -- the pair the walk joined is the pair the tree joined there
        obtain ⟨own, hown⟩ : ∃ own, level[position]? = some own :=
          ⟨_, getElem?_eq_getElem hposition⟩
        obtain ⟨beside, hbeside, hpair⟩ := pairsOf_at pad hown
        have hjoined :
            join (placed position own beside) = join (placed position current sibling) := by
          rw [joinLevel, getElem?_map, hpair, map_some] at habove
          exact some.inj habove
        have hin : placed position own beside ∈ S :=
          htree _ (mem_append_left _ (mem_of_getElem? hpair))
        have hin' : placed position current sibling ∈ S := hwalked _ mem_cons_self
        obtain ⟨rfl, rfl⟩ := placed_inj (hjoin hin hin' hjoined)
        refine ⟨hown, ?_⟩
        simp [treePath, hmore, hbeside, hpath]
    · rw [treeTop, if_neg hmore] at htop
      rw [treeWalk_of_done hmore] at hwalk
      obtain ⟨hnone, hcurrent⟩ : siblings.isEmpty = true ∧ current = top := by simpa using hwalk
      rw [isEmpty_iff.mp hnone, treePath, if_neg hmore, single_at hmore hposition, hcurrent]
      exact ⟨htop, rfl⟩

theorem treeTop_inj (pad : α) (hjoin : Set.InjOn join S) {level' : List α}
    (hsteps : level.length ≤ steps) (hlength : level.length = level'.length)
    (htree : ∀ pair ∈ treePairs join pad steps level, pair ∈ S)
    (htree' : ∀ pair ∈ treePairs join pad steps level', pair ∈ S)
    (htop : treeTop join pad steps level = treeTop join pad steps level') : level = level' := by
  induction steps generalizing level level' with
  | zero =>
    have hnil : level = [] := length_eq_zero_iff.mp (by omega)
    have hnil' : level' = [] := length_eq_zero_iff.mp (by omega)
    rw [hnil, hnil']
  | succ steps ih =>
    by_cases hmore : 1 < level.length
    · have hmore' : 1 < level'.length := hlength ▸ hmore
      rw [treePairs, if_pos hmore] at htree
      rw [treePairs, if_pos hmore'] at htree'
      rw [treeTop_of_joined hmore, treeTop_of_joined hmore'] at htop
      have habove : joinLevel join pad level = joinLevel join pad level' := by
        refine ih ?_ ?_ (fun pair hpair => htree pair (mem_append_right _ hpair))
          (fun pair hpair => htree' pair (mem_append_right _ hpair)) htop
        · rw [length_joinLevel]
          omega
        · rw [length_joinLevel, length_joinLevel, hlength]
      have hpairs : pairsOf pad level = pairsOf pad level' :=
        map_injOn hjoin (fun pair hpair => htree pair (mem_append_left _ hpair))
          (fun pair hpair => htree' pair (mem_append_left _ hpair)) habove
      exact pairsOf_inj pad hlength hpairs
    · have hmore' : ¬ 1 < level'.length := hlength ▸ hmore
      rw [treeTop, treeTop, if_neg hmore, if_neg hmore'] at htop
      refine ext_getElem? fun position => ?_
      by_cases hposition : position < level.length
      · rw [single_at hmore hposition, single_at hmore' (hlength ▸ hposition), htop]
      · rw [getElem?_eq_none (by omega), getElem?_eq_none (by omega)]

end

end HyperscaleVm.Library

import HyperscaleVm.Effects.Publish.Conditions
import HyperscaleVm.Effects.Publish.Targets

/-!
# Leaves written where absent (`effects/src/publish/declaration.rs`)

An instance's configuration and a resource's record are created and never rewritten:
`protocol_shape` lets a method write one only beside a condition that the leaf be absent.
-/

namespace HyperscaleVm.Effects.Publish
open Library

/-- The leaves a gated method creates and never rewrites: an instance's configuration, or
the record of a resource. -/
inductive CreateOnce (H : Hasher) : EffectTarget → Prop
  | config (owner : Address) : CreateOnce H (.point (childKey H owner CONFIG []))
  | record (owner : Address) (resource : Value) :
      CreateOnce H (.point (childKey H owner RESOURCE [resource]))

def absentDoor (target : TargetExpr) (under : Option Expr) : Clause → Bool
  | .requires guard (.require (.presence required .absent)) =>
    required = target && (guard = none || guard = under)
  | _ => false

variable {target : TargetExpr}

theorem absentDoor_of_requiredPresence {flat : List Clause} {guard : Option Expr}
    (h : requiredPresence flat guard target = some .absent) :
    flat.any (absentDoor target guard) = true := by
  obtain ⟨c, hc, hp⟩ := List.exists_of_findSome?_eq_some h
  refine List.any_eq_true.mpr ⟨c, hc, ?_⟩
  split at hp
  · split at hp
    · rename_i hmatch
      cases hp
      simpa [absentDoor] using hmatch
    · cases hp
  · cases hp

variable {slot : SlotId}

theorem creates_of_shape {i : ℕ} {mode : ModeExpr}
    {denomination : Option Expr} {requires : Option Presence} {material : Exprs}
    (hs : slotOf target = some (.fixed slot, material)) (hslot : slot = CONFIG ∨ slot = RESOURCE)
    (h : protocolShape i target mode denomination requires = .ok ()) :
    mode.isRead = true ∨ (mode.isWrite = true ∧ requires = some .absent) := by
  unfold protocolShape at h
  rw [hs] at h
  rcases hslot with rfl | rfl <;>
    simp [vocabularyShape, KERNEL_SLOT_BASE, PACKAGE_SLOT_BASE, CONFIG, RESOURCE, VAULT, NF_VAULT,
      AUTH, HALT] at h <;>
    exact h.2

namespace Frame

variable {H : Hasher} {signature : MethodSignature} (f : Frame H signature)

def CreatesUnderDoor : Prop :=
  ∀ a ∈ f.declaration.ordered, a.effect.mode.kind = .write → CreateOnce H a.effect.target →
    ∃ c ∈ f.declaration.conditions, c.rule = .require (.presence a.effect.target .absent)

def RequiresAbsent (t : EffectTarget) : Prop :=
  ∃ l guard target, f.fires l ∧ l.clause = .requires guard (.require (.presence target .absent)) ∧
    target.meaning H f.inputs l.bindings = some t

/-- The creating writes whose doors all stand outside their own body have a door that fires. -/
def ElsewhereDoored : Prop :=
  ∀ l guard target moves denomination reach, f.fires l →
    l.clause = .effect guard target (.write moves) denomination reach →
    ∀ t, target.meaning H f.inputs l.bindings = some t → CreateOnce H t →
      signature.flat.any (absentDoor target guard) = true →
      l.body.any (absentDoor target guard) = false → f.RequiresAbsent t

theorem requiresAbsent_iff (t : EffectTarget) : f.RequiresAbsent t ↔
      ∃ c ∈ f.declaration.conditions, c.rule = .require (.presence t .absent) := by
  constructor
  · rintro ⟨l, guard, target, hl, hc, ht⟩
    obtain ⟨c, hcmem, hrule⟩ := condition_of_fires f.evaluated hl hc
    simp only [Rule.mapLeaves, RuleLeaf.meaning, ht, Option.bind_eq_bind, Option.bind_some,
      Option.pure_def, Option.some.injEq] at hrule
    exact ⟨c, hcmem, hrule.symm⟩
  · rintro ⟨c, hcmem, hrule⟩
    obtain ⟨l, guard, rule, hl, hc, hmap⟩ := fires_of_condition f.evaluated hcmem
    rw [hrule] at hmap
    cases rule with
    | countOf count rules =>
      simp [Rule.mapLeaves, Option.bind_eq_some_iff] at hmap
    | require leaf =>
      simp only [Rule.mapLeaves, do_some, Option.pure_def, Option.some.injEq, Rule.require.injEq,
        exists_eq_right] at hmap
      cases leaf with
      | presence target expect =>
        simp only [RuleLeaf.meaning, do_some, Option.some.injEq, JudgedLeaf.presence.injEq] at hmap
        obtain ⟨t', ht, rfl, rfl⟩ := hmap
        exact ⟨l, guard, target, hl, hc, ht⟩
      | _ => simp [RuleLeaf.meaning, Option.bind_eq_some_iff] at hmap

variable {l : Firing} {guard : Option Expr} {target : TargetExpr} {t : EffectTarget}

theorem requiresAbsent_of_door (hl : f.fires l) (hguard : l.clause.guard = guard)
    (hdoor : l.body.any (absentDoor target guard) = true)
    (ht : target.meaning H f.inputs l.bindings = some t) : f.RequiresAbsent t := by
  obtain ⟨c, hmem, hd⟩ := List.any_eq_true.mp hdoor
  unfold absentDoor at hd
  split at hd
  · rename_i guard' required
    simp only [Bool.and_eq_true, Bool.or_eq_true, decide_eq_true_eq] at hd
    obtain ⟨rfl, hg⟩ := hd
    have hfires : guardMeaning H f.inputs l.bindings guard' = some true := by
      rcases hg with rfl | rfl
      · rfl
      · rw [← hguard]
        exact hl.guard_holds
    exact ⟨⟨l.body, _, l.bindings⟩, guard', required, hl.sibling hmem rfl hfires, rfl, ht⟩
  · cases hd

theorem door_of_gate (hH : H.Injective) (hgate : checkSignature signature = .ok ())
    (hl : f.fires l) {mode : ModeExpr}
    {denomination : Option Expr} {reach : Option GrantedBehaviour}
    (hc : l.clause = .effect guard target mode denomination reach)
    (ht : target.meaning H f.inputs l.bindings = some t) (honce : CreateOnce H t) :
    mode.isRead = true ∨
      (mode.isWrite = true ∧ signature.flat.any (absentDoor target guard) = true) := by
  have hmem : l.clause ∈ signature.flat := hl.mem_flat
  rw [hc] at hmem
  obtain ⟨i, hi⟩ := judgeAccess_of_mem (checkSignature_ok.mp hgate).2.1 hmem
  have hshape := (judgeAccess_cell hi).1
  obtain ⟨owner, slot, parts, rfl, hslot⟩ : ∃ owner slot parts,
      t = .point (childKey H owner slot parts) ∧ (slot = CONFIG ∨ slot = RESOURCE) := by
    cases honce with
    | config owner => exact ⟨owner, CONFIG, [], rfl, .inl rfl⟩
    | record owner resource => exact ⟨owner, RESOURCE, [resource], rfl, .inr rfl⟩
  obtain ⟨o, s, material, rfl, -, hs, -⟩ := spelled_of_gate hH hi ht
  obtain rfl : s = .fixed slot := by
    rcases hslot with rfl | rfl <;> exact fixed_of_meaning hs (by decide) (by decide) (by decide)
  rcases creates_of_shape rfl hslot hshape with hread | ⟨hwrite, hdoor⟩
  · exact .inl hread
  · exact .inr ⟨hwrite, absentDoor_of_requiredPresence hdoor⟩

theorem createsUnderDoor_iff (hH : H.Injective) (hgate : checkSignature signature = .ok ()) :
    f.CreatesUnderDoor ↔ f.ElsewhereDoored := by
  constructor
  · intro h l guard target moves denomination reach hl hc t ht honce _ _
    obtain ⟨a, ha, hd⟩ := access_of_fires f.evaluated hl hc
    obtain rfl : t = a.effect.target := Option.some.inj (ht.symm.trans hd.target_eq)
    have hkind : a.effect.mode = .write moves := (Option.some.inj hd.mode_eq).symm
    exact (f.requiresAbsent_iff _).mpr (h a ha (by rw [hkind]; rfl) honce)
  · intro h a ha hkind honce
    obtain ⟨l, guard, target, mode, denomination, reach, hl, hd⟩ := fires_of_access f.evaluated ha
    obtain ⟨moves, rfl⟩ := write_of_meaning hd.mode_eq hkind
    rw [← f.requiresAbsent_iff]
    rcases f.door_of_gate hH hgate hl hd.clause_eq hd.target_eq honce with hread | ⟨-, hflat⟩
    · cases hread
    cases hbody : l.body.any (absentDoor target guard) with
    | true =>
      exact f.requiresAbsent_of_door hl (by rw [hd.clause_eq]; rfl) hbody hd.target_eq
    | false =>
      exact h l guard target moves denomination reach hl hd.clause_eq _ hd.target_eq honce hflat
        hbody

theorem door_of_change (hH : H.Injective) (hgate : checkSignature signature = .ok ())
    (hdoored : f.ElsewhereDoored) {a : DeclaredAccess} (ha : a ∈ f.declaration.ordered)
    (hkind : a.effect.mode.kind ≠ .read) (honce : CreateOnce H a.effect.target) :
    ∃ c ∈ f.declaration.conditions, c.rule = .require (.presence a.effect.target .absent) := by
  obtain ⟨l, guard, target, mode, denomination, reach, hl, hd⟩ := fires_of_access f.evaluated ha
  refine (f.createsUnderDoor_iff hH hgate).mpr hdoored a ha ?_ honce
  have hmode := kind_of_meaning hd.mode_eq
  rcases f.door_of_gate hH hgate hl hd.clause_eq hd.target_eq honce with hread | ⟨hwrite, -⟩
  · exact (hmode.mp (by simp [hread])).resolve_left hkind
  · exact (hmode.mp (by simp [hwrite])).resolve_left hkind

theorem elsewhereDoored_of_no_loops (hno : ∀ c ∈ signature.effects, c.isLoop = false) :
    f.ElsewhereDoored := by
  intro l guard target moves denomination reach hl hc t ht honce hflat hbody
  rw [hl.body_of_no_loops hno] at hbody
  rw [MethodSignature.flat, effectsAll_of_no_loops hno, hbody] at hflat
  cases hflat

end Frame

abbrev Leaves := SubstateKey → Option (List ℕ)

def KernelCell (H : Hasher) (key : SubstateKey) : Prop :=
  ∃ owner slot parts, key = childKey H owner slot parts ∧ (slot = VAULT ∨ KERNEL_SLOT_BASE ≤ slot)

structure GatedFrame (H : Hasher) where
  signature : MethodSignature
  gated : checkSignature signature = .ok ()
  frame : Frame H signature

/-- A transaction commits: the presences its frames require hold of the state it starts
from, and a leaf it changes is declared under more than a read, or is the kernel's own. -/
structure Commits (H : Hasher) (frames : Set (GatedFrame H)) (σ σ' : Leaves) : Prop where
  met : ∀ g ∈ frames, ∀ c ∈ g.frame.declaration.conditions, ∀ key expect,
    c.rule = .require (.presence (.point key) expect) → metBy expect (σ key).isSome = true
  confined : ∀ key, σ' key ≠ σ key → KernelCell H key ∨ ∃ g ∈ frames,
    ∃ a ∈ g.frame.declaration.ordered, a.effect.target = .point key ∧ a.effect.mode.kind ≠ .read

variable {H : Hasher}

theorem not_kernelCell (hH : H.Injective) {owner : Address}
    {parts : List Value} (hvault : slot ≠ VAULT) (hslot : slot < KERNEL_SLOT_BASE) :
    ¬KernelCell H (childKey H owner slot parts) := by
  rintro ⟨owner', slot', parts', heq, hkernel⟩
  simp only [childKey, SubstateKey.mk.injEq] at heq
  obtain ⟨rfl, hc⟩ := heq
  obtain ⟨rfl, -⟩ := hH.child hc
  rcases hkernel with h | h
  · exact hvault h
  · exact absurd hslot (Nat.not_lt.mpr h)

variable {key : SubstateKey}

theorem CreateOnce.not_kernelCell (hH : H.Injective)
    (h : CreateOnce H (.point key)) : ¬KernelCell H key := by
  cases h with
  | config | record => exact Publish.not_kernelCell hH (by decide) (by decide)

section

variable {H : Hasher} {frames : Set (GatedFrame H)} {σ σ' : Leaves} {key : SubstateKey}

theorem absent_of_change (hH : H.Injective) (h : Commits H frames σ σ')
    (hdoored : ∀ g ∈ frames, g.frame.ElsewhereDoored) (honce : CreateOnce H (.point key))
    (hchange : σ' key ≠ σ key) : σ key = none := by
  rcases h.confined key hchange with hkernel | ⟨g, hg, a, ha, htarget, hkind⟩
  · exact (honce.not_kernelCell hH hkernel).elim
  · obtain ⟨c, hc, hrule⟩ := g.frame.door_of_change hH g.gated (hdoored g hg) ha hkind
      (htarget ▸ honce)
    have hmet := h.met g hg c hc key .absent (htarget ▸ hrule)
    simpa [metBy] using hmet

end

variable {σ : ℕ → Leaves} {m : ℕ}

theorem stays_of_present (hH : H.Injective)
    {txs : ℕ → Set (GatedFrame H)} (hrun : ∀ n, Commits H (txs n) (σ n) (σ (n + 1)))
    (hdoored : ∀ n, ∀ g ∈ txs n, g.frame.ElsewhereDoored)
    (honce : CreateOnce H (.point key)) (hm : σ m key ≠ none) (k : ℕ) :
    σ (m + k) key = σ m key := by
  induction k with
  | zero => rfl
  | succ k ih =>
    by_contra hne
    have hchange : σ (m + k + 1) key ≠ σ (m + k) key := by
      rw [ih]
      exact hne
    exact hm (ih ▸ absent_of_change hH (hrun _) (hdoored _) honce hchange)

theorem changes_once (hH : H.Injective)
    {txs : ℕ → Set (GatedFrame H)} (hrun : ∀ n, Commits H (txs n) (σ n) (σ (n + 1)))
    (hdoored : ∀ n, ∀ g ∈ txs n, g.frame.ElsewhereDoored)
    (honce : CreateOnce H (.point key)) {n : ℕ} (hm : σ (m + 1) key ≠ σ m key)
    (hn : σ (n + 1) key ≠ σ n key) : m = n := by
  -- the later of two changes would have found the leaf absent
  have hearlier : ∀ {m n : ℕ}, m < n → σ (m + 1) key ≠ σ m key →
      σ (n + 1) key ≠ σ n key → False := by
    intro m n hlt hm hn
    have hpresent : σ (m + 1) key ≠ none := by
      rw [absent_of_change hH (hrun m) (hdoored m) honce hm] at hm
      exact hm
    have hstay := stays_of_present hH hrun hdoored honce hpresent (n - (m + 1))
    rw [show m + 1 + (n - (m + 1)) = n by omega] at hstay
    exact hpresent (hstay ▸ absent_of_change hH (hrun n) (hdoored n) honce hn)
  rcases Nat.lt_trichotomy m n with h | h | h
  · exact (hearlier h hm hn).elim
  · exact h
  · exact (hearlier h hn hm).elim

/-- A gated frame writes a created-once leaf only beside its own door exactly when the
doors outside the write's body fire with it; and in a run of frames that do, no such leaf
changes twice. -/
theorem created_leaves_written_once_iff_doored {H : Hasher} (hH : H.Injective) :
    (∀ signature, checkSignature signature = .ok () → ∀ f : Frame H signature,
        f.CreatesUnderDoor ↔ f.ElsewhereDoored) ∧ ∀ (σ : ℕ → Leaves) (txs : ℕ → Set (GatedFrame H)),
        (∀ n, Commits H (txs n) (σ n) (σ (n + 1))) →
        (∀ n, ∀ g ∈ txs n, g.frame.ElsewhereDoored) → ∀ key, CreateOnce H (.point key) →
        ∀ m n, σ (m + 1) key ≠ σ m key → σ (n + 1) key ≠ σ n key → m = n :=
  ⟨fun _ hgate f => f.createsUnderDoor_iff hH hgate,
    fun _ _ hrun hdoored _ honce _ _ hm hn => changes_once hH hrun hdoored honce hm hn⟩

def configTarget : TargetExpr := .point (selfChild CONFIG .nil)

def absentConfig : Clause := .requires none (.require (.presence configTarget .absent))

def writeConfig : Clause := .effect none configTarget (.write .both) none none

def sealEach : MethodSignature :=
  { readEach with effects := [.forEach none (.arg 0) [absentConfig], writeConfig] }

theorem empty_loop_rewrites_config : checkSignature sealEach = .ok () ∧
      ∃ f : Frame codedHasher sealEach, f.inputs = boxInputs [] ∧ ¬f.CreatesUnderDoor := by
  refine ⟨by decide, ?_⟩
  have hrun : Library.passes (evaluateDeclaration codedHasher (boxInputs []) sealEach.effects 0)
      (fun p => p.1.conditions.isEmpty && p.1.ordered.any fun a =>
        a.effect.mode.kind = .write &&
          a.effect.target = .point (childKey codedHasher boxInstance CONFIG [])) = true := by
    decide +kernel
  obtain ⟨⟨d, spent⟩, hd, h⟩ := Library.passes_iff.mp hrun
  simp only [Bool.and_eq_true, List.isEmpty_iff, List.any_eq_true, decide_eq_true_eq] at h
  obtain ⟨hnone, a, ha, hkind, htarget⟩ := h
  refine ⟨⟨boxInputs [], 0, spent, d, hd⟩, rfl, fun hdoor => ?_⟩
  obtain ⟨c, hc, -⟩ := hdoor a ha hkind (htarget ▸ .config boxInstance)
  simp [hnone] at hc

def sealOnce : MethodSignature := { readEach with effects := [absentConfig, writeConfig] }

theorem sealOnce_creates_under_door :
    ∃ f : Frame codedHasher sealOnce, f.declaration.ordered ≠ [] ∧ f.CreatesUnderDoor := by
  have hrun : Library.passes (evaluateDeclaration codedHasher (boxInputs []) sealOnce.effects 0)
      (fun p => !p.1.ordered.isEmpty) = true := by
    decide +kernel
  obtain ⟨⟨d, spent⟩, hd, h⟩ := Library.passes_iff.mp hrun
  let f : Frame codedHasher sealOnce := ⟨boxInputs [], 0, spent, d, hd⟩
  refine ⟨f, by simpa [f] using h, ?_⟩
  refine ((created_leaves_written_once_iff_doored codedHasher_injective).1 sealOnce (by decide)
    f).mpr (f.elsewhereDoored_of_no_loops ?_)
  simp [sealOnce, absentConfig, writeConfig, Clause.isLoop]

end HyperscaleVm.Effects.Publish

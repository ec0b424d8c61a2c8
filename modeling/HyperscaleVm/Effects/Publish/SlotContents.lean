import HyperscaleVm.Effects.Admission.Inject
import HyperscaleVm.Effects.CodedHasher
import HyperscaleVm.Effects.Fires
import HyperscaleVm.Effects.Publish.Targets

/-!
# What a slot holds, over every call (`effects/src/publish/package.rs`)

`check_slot_contents` records one answer of each method about each numbered slot, its
first; `check_agreement` compares the accesses of one method by the expressions they are
written with.
-/

namespace HyperscaleVm.Effects.Publish
open List Option Library
open Std (ExtTreeMap)

inductive Contents where
  | leaf (key : SubstateKey)
  | entries (owner : Address) (collection : ℕ)
  deriving DecidableEq

def Contents.of : EffectTarget → Contents
  | .point key => .leaf key
  | .entry owner collection _ => .entries owner collection
  | .range owner collection _ _ _ => .entries owner collection

def Contents.owner : Contents → Address
  | .leaf key => key.owner
  | .entries owner _ => owner

theorem Contents.owner_of (t : EffectTarget) : (Contents.of t).owner = t.owner := by
  cases t <;> rfl

/-- A call of a method of the package on an instance, evaluated and held to
its prefixes. -/
structure Call (H : Hasher) (metadata : PackageMetadata) (instance_ : Address)
    (record : InstanceMeta) where
  name : String
  signature : MethodSignature
  listed : (name, signature) ∈ metadata.methods
  inputs : EvalInputs
  onSelf : inputs.selfAddr = instance_
  ofRecord : inputs.record = record
  widths : inputs.widths = metadata.slotWidths
  envelope : ℕ
  spent : ℕ
  declaration : Declaration
  evaluated : evaluateDeclaration H inputs signature.effects envelope = .ok (declaration, spent)
  placed : Admission.judgePrefixes declaration instance_ inputs.nodeIndex = .ok ()

/-- No leaf and no collection of an instance's own prefix is reached as value by one
evaluated access and as bytes by another, over any two calls. -/
def SlotsHoldOneThing (H : Hasher) (metadata : PackageMetadata) : Prop :=
  ∀ instance_ record (f g : Call H metadata instance_ record), ∀ a ∈ f.declaration.ordered,
    ∀ b ∈ g.declaration.ordered, a.effect.target.owner = instance_ →
      Contents.of a.effect.target = Contents.of b.effect.target →
      ¬(a.holds.isSome = true ∧ b.holds = none)

def Numbered.contents (H : Hasher) (owner : Address) (parts : List Value) : Numbered → Contents
  | .cell slot => .leaf (childKey H owner slot parts)
  | .entries slot => .entries owner (H.collection owner slot parts)

variable {n : Numbered}

theorem Numbered.contents_injective {H : Hasher} (hH : H.Injective) {owner : Address}
    {n' : Numbered} {parts parts' : List Value}
    (h : n.contents H owner parts = n'.contents H owner parts') : n = n' ∧ parts = parts' := by
  cases n with
  | cell slot =>
    cases n' with
    | cell slot' =>
      simp only [contents, childKey, Contents.leaf.injEq, SubstateKey.mk.injEq, true_and] at h
      obtain ⟨rfl, rfl⟩ := hH.child h
      exact ⟨rfl, rfl⟩
    | entries slot' => cases h
  | entries slot =>
    cases n' with
    | cell slot' => cases h
    | entries slot' =>
      simp only [contents, Contents.entries.injEq, true_and] at h
      obtain ⟨rfl, rfl⟩ := hH.collection h
      exact ⟨rfl, rfl⟩

def keyMaterial (H : Hasher) (E : EvalInputs) (l : Firing) : Option (List Value) :=
  match l.clause with
  | .effect _ target _ _ _ => (slotOf target).bind fun p => p.2.meaning H E l.bindings
  | _ => none

section

variable {H : Hasher} {E : EvalInputs} {ρ : List Value} {slot : SlotId} {material : Exprs}

theorem collectionMeaning_fixed {owner : Address} {c : ℕ}
    (h : collectionMeaning H E ρ owner (.fixed slot) material = some c) :
    ∃ parts, material.meaning H E ρ = some parts ∧ c = H.collection owner slot parts := by
  cases hm : material.meaning H E ρ with
  | none => simp [collectionMeaning, SlotRef.meaning, hm] at h
  | some parts =>
    simp only [collectionMeaning, SlotRef.meaning, hm, bind_eq_bind, bind_some,
      some.injEq] at h
    exact ⟨parts, rfl, h.symm⟩

variable {target : TargetExpr} {t : EffectTarget}

theorem ownEntries_meaning (hpoint : target.isPoint = false) (hown : targetsOwnPrefix target = true)
    (hslot : slotOf target = some (.fixed slot, material)) (ht : target.meaning H E ρ = some t) :
    ∃ parts, material.meaning H E ρ = some parts ∧
      Contents.of t = .entries E.selfAddr (H.collection E.selfAddr slot parts) := by
  cases target with
  | point key => cases hpoint
  | entry owner collection material' order =>
    obtain rfl : owner = .selfAddr := by simpa [targetsOwnPrefix] using hown
    cases hslot
    simp only [TargetExpr.meaning, do_some, Expr.meaning, some.injEq, exists_eq_left', asAddress,
      Except.toOption] at ht
    obtain ⟨c, hc, -, -, -, -, rfl⟩ := ht
    obtain ⟨parts, hm, rfl⟩ := collectionMeaning_fixed hc
    exact ⟨parts, hm, rfl⟩
  | range owner collection material' lo hi cap =>
    obtain rfl : owner = .selfAddr := by simpa [targetsOwnPrefix] using hown
    cases hslot
    simp only [TargetExpr.meaning, do_some, Expr.meaning, some.injEq, exists_eq_left', asAddress,
      Except.toOption] at ht
    obtain ⟨c, hc, ht⟩ := ht
    obtain ⟨-, -, -, -, -, -, -, -, -, -, -, -, -, -, rfl⟩ := ht
    obtain ⟨parts, hm, rfl⟩ := collectionMeaning_fixed hc
    exact ⟨parts, hm, rfl⟩

theorem ownTarget_meaning (hown : targetsOwnPrefix target = true)
    (hslot : ((slotOf target).bind fun p => p.1.isReached) = none)
    (ht : target.meaning H E ρ = some t) : (∃ n parts, numbered target = some n ∧
        ((slotOf target).bind fun p => p.2.meaning H E ρ) = some parts ∧
        Contents.of t = n.contents H E.selfAddr parts) ∨ (slotOf target = none ∧
        ∃ slot, t = .point ⟨E.selfAddr, freshLocal H E.identity E.nodeIndex slot⟩) := by
  cases target with
  | point key =>
    cases key with
    | childKey owner slot material =>
      obtain rfl : owner = .selfAddr := by simpa [targetsOwnPrefix] using hown
      cases slot with
      | reached expr => cases hslot
      | fixed slot =>
        rw [← selfChild, selfChild_meaning, map_eq_some_iff] at ht
        obtain ⟨parts, hm, rfl⟩ := ht
        exact .inl ⟨.cell slot, parts, rfl, hm, rfl⟩
    | freshKey slot =>
      simp only [TargetExpr.meaning, Expr.meaning, asKey, Except.toOption, bind_eq_bind,
        bind_some, some.injEq] at ht
      exact .inr ⟨rfl, slot, ht.symm⟩
    | _ => simp [targetsOwnPrefix] at hown
  | entry owner collection material order | range owner collection material lo hi cap =>
    cases collection with
    | reached expr => cases hslot
    | fixed slot =>
      obtain ⟨parts, hm, hc⟩ := ownEntries_meaning rfl hown rfl ht
      exact .inl ⟨.entries slot, parts, rfl, hm, hc⟩

end

namespace Call

variable {H : Hasher} {metadata : PackageMetadata} {instance_ : Address} {record : InstanceMeta}
  (f : Call H metadata instance_ record)

def fires (l : Firing) : Prop := Fires H f.inputs f.signature.effects l

variable {l : Firing} {a : DeclaredAccess}

theorem own_declares (hgate : checkSignature f.signature = .ok ()) (hl : f.fires l)
    {guard : Option Expr} {target : TargetExpr} {mode : ModeExpr} {denomination : Option Expr}
    (hd : l.clause.Declares H f.inputs l.bindings guard target mode denomination none a) :
    (∃ n parts, answer l.clause = some (n, a.holds.isSome) ∧ keyMaterial H f.inputs l = some parts ∧
        Contents.of a.effect.target = n.contents H instance_ parts) ∨
      (answer l.clause = none ∧ a.holds = none ∧ ∃ slot, a.effect.target =
        .point ⟨instance_, freshLocal H f.inputs.identity f.inputs.nodeIndex slot⟩) := by
  have hmem : l.clause ∈ f.signature.flat := hl.mem_flat
  rw [hd.clause_eq] at hmem
  obtain ⟨i, hi⟩ := judgeAccess_of_mem (checkSignature_ok.mp hgate).2.1 hmem
  obtain ⟨hown, hslot⟩ := judgeAccess_own hi
  have hden := (judgeAccess_cell hi).2
  have hholds := holdsMeaning_isSome hd.holds_eq
  rcases ownTarget_meaning hown hslot hd.target_eq with ⟨n, parts, hn, hm, hc⟩ | ⟨hno, slot, hc⟩
  · refine .inl ⟨n, parts, ?_, ?_, ?_⟩
    · simp [hd.clause_eq, answer, hn, hholds]
    · simp only [keyMaterial, hd.clause_eq]
      exact hm
    · rw [hc, f.onSelf]
  · refine .inr ⟨?_, ?_, slot, ?_⟩
    · simp [hd.clause_eq, answer, numbered, hno]
    · cases denomination with
      | none => simpa using hholds
      | some held => simpa [hno] using hden held rfl
    · rw [hc, f.onSelf]

theorem own_access (hgate : checkSignature f.signature = .ok ())
    (ha : a ∈ f.declaration.ordered) (ho : a.effect.target.owner = instance_) :
    (∃ l n parts, f.fires l ∧ answer l.clause = some (n, a.holds.isSome) ∧
        keyMaterial H f.inputs l = some parts ∧
        Contents.of a.effect.target = n.contents H instance_ parts) ∨
      (a.holds = none ∧ ∃ slot, a.effect.target =
        .point ⟨instance_, freshLocal H f.inputs.identity f.inputs.nodeIndex slot⟩) := by
  have hreach : a.reach = none := (Admission.judgePrefixes_ok.mp f.placed a ha).mpr ho
  obtain ⟨l, guard, target, mode, denomination, reach, hl, hd⟩ := fires_of_access f.evaluated ha
  obtain rfl : reach = none := by
    have hsome := reachMeaning_isSome hd.reach_eq
    rw [hreach] at hsome
    exact isNone_iff_eq_none.mp (by simp [← not_isSome, ← hsome])
  rcases f.own_declares hgate hl hd with ⟨n, parts, h⟩ | ⟨-, h⟩
  · exact .inl ⟨l, n, parts, hl, h⟩
  · exact .inr h

theorem access_of_answer (hgate : checkSignature f.signature = .ok ())
    (hl : f.fires l) {n : Numbered} {value : Bool} (hans : answer l.clause = some (n, value)) :
    ∃ a ∈ f.declaration.ordered, a.effect.target.owner = instance_ ∧ a.holds.isSome = value ∧
      ∃ parts, keyMaterial H f.inputs l = some parts ∧
        Contents.of a.effect.target = n.contents H instance_ parts := by
  obtain ⟨guard, target, mode, denomination, hc⟩ :
      ∃ guard target mode denomination, l.clause = .effect guard target mode denomination none := by
    cases hc : l.clause with
    | effect guard target mode denomination reach =>
      cases reach with
      | none => exact ⟨guard, target, mode, denomination, rfl⟩
      | some behaviour => simp [hc, answer] at hans
    | _ => simp [hc, answer] at hans
  obtain ⟨a, ha, hd⟩ := access_of_fires f.evaluated hl hc
  have hreach : a.reach = none := by simpa using reachMeaning_isSome hd.reach_eq
  have ho := (Admission.judgePrefixes_ok.mp f.placed a ha).mp hreach
  rcases f.own_declares hgate hl hd with ⟨n', parts, hans', hm, hcontents⟩ | ⟨hno, -⟩
  · rw [hans, some.injEq, Prod.mk.injEq] at hans'
    obtain ⟨rfl, hvalue⟩ := hans'
    exact ⟨a, ha, ho, hvalue.symm, parts, hm, hcontents⟩
  · simp [hno] at hans

end Call

def answerFor (n : Numbered) (clause : Clause) : Option Bool :=
  match answer clause with
  | some (n', holds) => if n' = n then some holds else none
  | none => none

variable {value : Bool}

theorem answerFor_eq_some {clause : Clause} :
    answerFor n clause = some value ↔ answer clause = some (n, value) := by
  unfold answerFor
  split
  · rename_i n' holds h
    split
    all_goals
      rename_i hn
      simp [h, hn]
  · rename_i h
    simp [h]

theorem foldl_answers (flat : List Clause) (said : ExtTreeMap Numbered Bool) (n : Numbered) :
    (flat.foldl sayFirst said)[n]? = said[n]?.or (flat.findSome? (answerFor n)) := by
  induction flat generalizing said with
  | nil => simp
  | cons c flat ih =>
    rw [foldl_cons, ih, findSome?_cons]
    cases hc : answer c with
    | none => simp [sayFirst, answerFor, hc]
    | some p =>
      obtain ⟨n', holds⟩ := p
      simp only [sayFirst, answerFor, hc, ExtTreeMap.getElem?_insertIfNew, Std.compare_eq_iff_eq,
        ExtTreeMap.mem_iff_isSome_getElem?]
      by_cases hn : n' = n
      · subst hn
        cases said[n']? <;> simp
      · simp [hn]

theorem firstAnswers_get (signature : MethodSignature) (n : Numbered) :
    (firstAnswers signature)[n]? = signature.flat.findSome? (answerFor n) := by
  simp [firstAnswers, foldl_answers]

variable {c : Clause}

theorem firstAnswers_of_answer {signature : MethodSignature}
    (hc : c ∈ signature.flat) (h : answer c = some (n, value)) :
    ∃ first, (firstAnswers signature)[n]? = some first ∧
      ∃ c' ∈ signature.flat, answer c' = some (n, first) := by
  rw [firstAnswers_get]
  cases hf : signature.flat.findSome? (answerFor n) with
  | none =>
    have := findSome?_eq_none_iff.mp hf c hc
    simp [answerFor_eq_some.mpr h] at this
  | some first =>
    obtain ⟨c', hc', h'⟩ := exists_of_findSome?_eq_some hf
    exact ⟨first, rfl, c', hc', answerFor_eq_some.mp h'⟩

variable {answered : ExtTreeMap Numbered (Bool × String)}

theorem compareAnswer_ok {method : String} {after : ExtTreeMap Numbered (Bool × String)}
    {entry : Numbered × Bool} (h : compareAnswer method answered entry = .ok after) :
    (∀ (n : Numbered) v, answered[n]? = some v → after[n]? = some v) ∧
      ∃ first, after[entry.1]? = some (entry.2, first) := by
  unfold compareAnswer at h
  split at h
  · rename_i hnone
    cases h
    refine ⟨fun n v hv => ?_, method, by simp⟩
    have hne : entry.1 ≠ n := by
      rintro rfl
      simp [hnone] at hv
    simp [hne, hv]
  · rename_i said first hsaid
    split at h
    · rename_i heq
      cases h
      exact ⟨fun _ _ => id, first, heq ▸ hsaid⟩
    · split at h <;> cases h

theorem firstAnswers_agree {methods : List (String × MethodSignature)}
    (h : checkSlotContents methods = .ok answered) :
    ∀ p ∈ methods, ∀ (n : Numbered) (value : Bool), (firstAnswers p.2)[n]? = some value →
      ∃ first, answered[n]? = some (value, first) := by
  let le (s t : ExtTreeMap Numbered (Bool × String)) : Prop :=
    ∀ (n : Numbered) v, s[n]? = some v → t[n]? = some v
  let said (e : Numbered × Bool) (s : ExtTreeMap Numbered (Bool × String)) : Prop :=
    ∃ first, s[e.1]? = some (e.2, first)
  have hrefl : ∀ s, le s s := fun s n v => id
  have htrans : ∀ s t u, le s t → le t u → le s u := fun s t u hst htu n v hv =>
    htu n v (hst n v hv)
  have hmono : ∀ e s t, le s t → said e s → said e t := fun e s t hst ⟨first, hf⟩ =>
    ⟨first, hst _ _ hf⟩
  have hmethod : ∀ s t, ∀ p ∈ methods,
      (firstAnswers p.2).toList.foldlM (compareAnswer p.1) s = .ok t →
        le s t ∧ ∀ e ∈ (firstAnswers p.2).toList, said e t :=
    fun s t p _ hp =>
      foldlM_marks hrefl htrans hmono (fun s t e _ he => compareAnswer_ok he) hp
  have hall := (foldlM_marks hrefl htrans
    (fun p s t hst hs e he => hmono e s t hst (hs e he)) hmethod h).2
  intro p hp n value hv
  exact hall p hp (n, value) (ExtTreeMap.mem_toList_iff_getElem?_eq_some.mpr hv)

def Mixed (metadata : PackageMetadata) (n : Numbered) : Prop :=
  ∃ p ∈ metadata.methods, (∃ c ∈ p.2.flat, answer c = some (n, true)) ∧
    ∃ c ∈ p.2.flat, answer c = some (n, false)

theorem mixed_of_answers {metadata : PackageMetadata} (hmeta : checkMetadata metadata = .ok ())
    {p q : String × MethodSignature} (hp : p ∈ metadata.methods) (hq : q ∈ metadata.methods)
    {c' : Clause} (hc : c ∈ p.2.flat) (hc' : c' ∈ q.2.flat)
    (h : answer c = some (n, true)) (h' : answer c' = some (n, false)) : Mixed metadata n := by
  obtain ⟨answered, hcontents⟩ : ∃ answered, checkSlotContents metadata.methods = .ok answered := by
    simp only [checkMetadata, checkTableAgreement, seq_ok] at hmeta
    obtain ⟨-, -, ⟨-, -, -, h⟩, -⟩ := hmeta
    obtain ⟨answered, h, -⟩ := bind_ok.mp h
    exact ⟨answered, h⟩
  obtain ⟨first, hfirst, d, hd, hdans⟩ := firstAnswers_of_answer hc h
  obtain ⟨first', hfirst', d', hd', hdans'⟩ := firstAnswers_of_answer hc' h'
  obtain ⟨m, hm⟩ := firstAnswers_agree hcontents p hp n first hfirst
  obtain ⟨m', hm'⟩ := firstAnswers_agree hcontents q hq n first' hfirst'
  obtain rfl : first = first' := by
    rw [hm, some.injEq, Prod.mk.injEq] at hm'
    exact hm'.1
  cases first with
  | true => exact ⟨q, hq, ⟨d', hd', hdans'⟩, c', hc', h'⟩
  | false => exact ⟨p, hp, ⟨c, hc, h⟩, d, hd, hdans⟩

/-- At a slot some method answers both ways about, the clauses that call it value and those
that call it bytes are keyed by different material in every two calls of an instance. -/
def MixedSlotsApart (H : Hasher) (metadata : PackageMetadata) : Prop :=
  ∀ n, Mixed metadata n → ∀ instance_ record (f g : Call H metadata instance_ record) l l',
    f.fires l → g.fires l' → answer l.clause = some (n, true) →
      answer l'.clause = some (n, false) → keyMaterial H f.inputs l ≠ keyMaterial H g.inputs l'

/-- A package past the gates keeps value and bytes apart exactly where its methods that
answer both ways about a slot do. -/
theorem slots_hold_one_thing_iff_mixed_apart {H : Hasher} (hH : H.Injective)
    {metadata : PackageMetadata} (hmeta : checkMetadata metadata = .ok ())
    (hsig : ∀ p ∈ metadata.methods, checkSignature p.2 = .ok ()) :
    SlotsHoldOneThing H metadata ↔ MixedSlotsApart H metadata := by
  constructor
  · intro hone n _ instance_ record f g l l' hl hl' hans hans' heq
    obtain ⟨a, ha, ho, hval, parts, hm, hc⟩ :=
      f.access_of_answer (hsig _ f.listed) hl hans
    obtain ⟨b, hb, -, hval', parts', hm', hc'⟩ :=
      g.access_of_answer (hsig _ g.listed) hl' hans'
    obtain rfl : parts = parts' := by
      rw [hm, hm', some.injEq] at heq
      exact heq
    refine hone instance_ record f g a ha b hb ho (hc.trans hc'.symm) ⟨hval, ?_⟩
    simpa using hval'
  · rintro hapart instance_ record f g a ha b hb ho hcontents ⟨hval, hbytes⟩
    have ho' : b.effect.target.owner = instance_ := by
      rw [← Contents.owner_of, ← hcontents, Contents.owner_of, ho]
    rcases f.own_access (hsig _ f.listed) ha ho with ⟨l, n, parts, hl, hans, hm, hc⟩ | ⟨hnone, -⟩
    · rcases g.own_access (hsig _ g.listed) hb ho' with ⟨l', n', parts', hl', hans', hm', hc'⟩ |
          ⟨-, slot, hfresh⟩
      · obtain ⟨rfl, rfl⟩ := Numbered.contents_injective hH (hc.symm.trans (hcontents.trans hc'))
        rw [hval] at hans
        rw [hbytes] at hans'
        have hmixed := mixed_of_answers hmeta f.listed g.listed hl.mem_flat hl'.mem_flat hans hans'
        exact hapart n hmixed instance_ record f g l l' hl hl' hans hans' (hm.trans hm'.symm)
      · -- a child key is never a fresh one
        rw [hc, hfresh] at hcontents
        cases n with
        | entries slot => cases hcontents
        | cell slot' =>
          simp only [Numbered.contents, childKey, Contents.of, Contents.leaf.injEq,
            SubstateKey.mk.injEq, true_and] at hcontents
          exact hH.fresh hcontents
    · simp [hnone] at hval

def tollResource : Address := ⟨7, .resource⟩

def tollInstance : Address := ⟨1, .component⟩

def tollFree : Expr := .eq (.arg 1) (.literal (.u64 0))

/-- `move(resource, flag)`: with no flag it holds the resource in the cell slot 16 keeps for
it; with one it writes bytes to the cell slot 16 keeps for a resource it names itself. -/
def tollMove : MethodSignature :=
  { MethodSignature.empty with
    params := [.resource, .u64]
    effects := [
      .effect (some tollFree) (.point (selfChild PACKAGE_SLOT_BASE (.single (.arg 0))))
        (.write .both) (some (.arg 0)) none,
      .effect (some (.not tollFree))
        (.point (selfChild PACKAGE_SLOT_BASE (.single (.literal (.address tollResource)))))
        (.write .both) none none] }

def tollPackage : PackageMetadata := .ofMethods [("move", tollMove)]

def tollInputs (flag : ℕ) : EvalInputs :=
  ⟨tollInstance, [.address tollResource, .u64 flag], ⟨0, [], 0⟩, 0, 0, tollPackage.slotWidths⟩

def tollReaches (flag : ℕ) (value : Bool) : Bool :=
  passes (evaluateDeclaration codedHasher (tollInputs flag) tollMove.effects 0) fun p =>
    decide (Admission.judgePrefixes p.1 tollInstance 0 = .ok ()) &&
      p.1.ordered.any fun a =>
        a.effect.target = .point (childKey codedHasher tollInstance PACKAGE_SLOT_BASE
          [.address tollResource]) && a.holds.isSome = value

theorem exists_toll_call {flag : ℕ} (h : tollReaches flag value = true) :
    ∃ f : Call codedHasher tollPackage tollInstance ⟨0, [], 0⟩, ∃ a ∈ f.declaration.ordered,
      a.effect.target = .point (childKey codedHasher tollInstance PACKAGE_SLOT_BASE
        [.address tollResource]) ∧ a.holds.isSome = value := by
  obtain ⟨⟨d, spent⟩, hd, h⟩ := passes_iff.mp h
  simp only [Bool.and_eq_true, decide_eq_true_eq, List.any_eq_true] at h
  obtain ⟨hplaced, a, ha, ht, hv⟩ := h
  exact ⟨⟨"move", tollMove, List.mem_singleton.mpr rfl, tollInputs flag, rfl, rfl, rfl, 0,
    spent, d, hd, hplaced⟩, a, ha, ht, hv⟩

theorem toll_cell_reached_both_ways :
    checkMetadata tollPackage = .ok () ∧ checkSignature tollMove = .ok () ∧
      ¬SlotsHoldOneThing codedHasher tollPackage := by
  refine ⟨rfl, by decide, fun hone => ?_⟩
  have hfree : tollReaches 0 true = true := by decide +kernel
  have hpaid : tollReaches 1 false = true := by decide +kernel
  obtain ⟨f, a, ha, ht, hv⟩ := exists_toll_call hfree
  obtain ⟨g, b, hb, ht', hv'⟩ := exists_toll_call hpaid
  refine hone _ _ f g a ha b hb (by rw [ht]; rfl) (by rw [ht, ht']) ⟨hv, ?_⟩
  simpa using hv'

def plainMove : MethodSignature := { tollMove with effects := tollMove.effects.take 1 }

def plainPackage : PackageMetadata := { tollPackage with methods := [("move", plainMove)] }

theorem plain_package_holds_one_thing : SlotsHoldOneThing codedHasher plainPackage := by
  refine (slots_hold_one_thing_iff_mixed_apart codedHasher_injective rfl ?_).mpr ?_
  · intro p hp
    obtain rfl : p = ("move", plainMove) := by simpa [plainPackage] using hp
    decide
  · rintro n ⟨p, hp, -, c, hc, hbytes⟩
    obtain rfl : p = ("move", plainMove) := by simpa [plainPackage] using hp
    obtain rfl := mem_singleton.mp hc
    simp [answer] at hbytes

end HyperscaleVm.Effects.Publish

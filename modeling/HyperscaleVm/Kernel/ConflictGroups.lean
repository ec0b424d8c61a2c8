import HyperscaleVm.Kernel.ConflictSweep

/-!
# Conflict groups of a batch (`kernel/src/executor.rs`)

Effects bucket by the key space they can alias, and every bucket merges its claims into
one union-find table. Grouping reads nothing of a batch entry but its declared set, so a
batch here is the list of those sets.
-/

namespace HyperscaleVm.Kernel
open HyperscaleVm.Library List Option PointClasses
open Std (ExtTreeMap)

variable {n : ℕ}

structure ClaimBuckets (n : ℕ) where
  points : ExtTreeMap SubstateKey (PointClasses n)
  collections : ExtTreeMap (Address ×ₗ ℕ) (List (CollectionClaim n))

def ClaimBuckets.push (b : ClaimBuckets n) (claim : Fin n × Effect) : ClaimBuckets n :=
  let (index, effect) := claim
  let kind := effect.mode.kind
  match effect.target with
  | .point key =>
    { b with points := b.points.alter key fun p => some ((p.getD .empty).push index kind) }
  | .entry owner collection _ | .range owner collection _ _ _ =>
    match claimInterval effect.target with
    | none => b
    | some (lo, hi) =>
      let claim : CollectionClaim n := ⟨index, lo, hi, kind.conflictClass⟩
      { b with
        collections := b.collections.alter (toLex (owner, collection)) fun claims =>
          some (claims.getD [] ++ [claim]) }

def declaredEffects (batch : List EffectSet) : List (Fin batch.length × Effect) :=
  (List.finRange batch.length).flatMap fun index =>
    (batch.get index).iter.map fun effect => (index, effect)

def bucket (batch : List EffectSet) : ClaimBuckets batch.length :=
  (declaredEffects batch).foldl ClaimBuckets.push ⟨∅, ∅⟩

def mergePoint (component : Forest n) (entry : SubstateKey × PointClasses n) : Forest n :=
  entry.2.mergeInto component

def mergeCollection (component : Forest n)
    (entry : (Address ×ₗ ℕ) × List (CollectionClaim n)) : Forest n :=
  sweepCollection entry.2 component

def components (batch : List EffectSet) : Forest batch.length :=
  let b := bucket batch
  let component := b.points.toList.foldl mergePoint (Forest.singletons batch.length)
  b.collections.toList.foldl mergeCollection component

def gatherIndex (state : Forest n × ExtTreeMap (Fin n) (List (Fin n))) (index : Fin n) :
    Forest n × ExtTreeMap (Fin n) (List (Fin n)) :=
  let (root, component) := state.1.find index
  (component, state.2.alter root fun group => some (group.getD [] ++ [index]))

def gather (component : Forest n) : ExtTreeMap (Fin n) (List (Fin n)) :=
  ((List.finRange n).foldl gatherIndex (component, ∅)).2

def conflictGroups (batch : List EffectSet) : List (List (Fin batch.length)) :=
  (gather (components batch)).toList.map Prod.snd

namespace ClaimBuckets

def pointsOf (b : ClaimBuckets n) (key : SubstateKey) : PointClasses n :=
  b.points[key]?.getD .empty

def claimsOf (b : ClaimBuckets n) (collection : Address × ℕ) : List (CollectionClaim n) :=
  b.collections[toLex collection]?.getD []

def Claims (i : Fin n) (e : Effect) (collection : Address × ℕ) (c : CollectionClaim n) : Prop :=
  collectionOf e.target = some collection ∧ claimInterval e.target = some (c.lo, c.hi) ∧
    c.tx = i ∧ c.cls = e.mode.kind.conflictClass

theorem mem_pointsOf_push (b : ClaimBuckets n) (i j : Fin n) (e : Effect) (key : SubstateKey)
    (cls : ConflictClass) : j ∈ ((b.push (i, e)).pointsOf key).of cls ↔
      j ∈ (b.pointsOf key).of cls ∨
        (j = i ∧ e.target = .point key ∧ e.mode.kind.conflictClass = cls) := by
  obtain ⟨target, mode⟩ := e
  cases target with
  | point k =>
    simp only [push, pointsOf, getElem?_alter_eq, EffectTarget.point.injEq]
    by_cases hk : k = key
    · subst hk
      simp [mem_of_push]
    · simp [hk]
  | entry o c m => simp [push, pointsOf, claimInterval]
  | range o c lo hi cap =>
    simp only [push, claimInterval]
    split <;> simp [pointsOf]

theorem mem_claimsOf_alter (b : ClaimBuckets n) (held collection : Address × ℕ)
    (c claim : CollectionClaim n) :
    c ∈ claimsOf { b with
        collections := b.collections.alter (toLex held) fun claims =>
          some (claims.getD [] ++ [claim]) } collection ↔
      c ∈ b.claimsOf collection ∨ (held = collection ∧ c = claim) := by
  simp only [claimsOf, getElem?_alter_eq]
  by_cases hk : held = collection
  · simp [hk]
  · simp [hk, toLex.injective.ne hk]

theorem mem_claimsOf_push (b : ClaimBuckets n) (i : Fin n) (e : Effect) (collection : Address × ℕ)
    (c : CollectionClaim n) : c ∈ (b.push (i, e)).claimsOf collection ↔
      c ∈ b.claimsOf collection ∨ Claims i e collection c := by
  obtain ⟨target, mode⟩ := e
  obtain ⟨tx, lo, hi, cls⟩ := c
  cases target with
  | point k => simp [push, claimsOf, Claims, collectionOf]
  | entry o k m =>
    simp only [push, claimInterval, mem_claimsOf_alter, Claims, collectionOf]
    grind
  | range o k l h m =>
    simp only [push, claimInterval, Claims, collectionOf]
    by_cases hlh : l ≤ h
    · simp only [hlh, if_true, mem_claimsOf_alter]
      grind
    · simp [hlh]

end ClaimBuckets

variable {batch : List EffectSet} {i : Fin batch.length}

theorem mem_declaredEffects {e : Effect} :
    (i, e) ∈ declaredEffects batch ↔ e ∈ (batch.get i).iter := by
  simp [declaredEffects]

variable {j : Fin batch.length} {key : SubstateKey}

theorem mem_bucket_points {cls : ConflictClass} : j ∈ ((bucket batch).pointsOf key).of cls ↔
      ∃ e ∈ (batch.get j).iter, e.target = .point key ∧ e.mode.kind.conflictClass = cls := by
  have hempty : ((⟨∅, ∅⟩ : ClaimBuckets batch.length).pointsOf key).of cls = [] := by
    cases cls <;> simp [ClaimBuckets.pointsOf, of, empty]
  rw [bucket, foldl_collects (P := fun b => j ∈ (b.pointsOf key).of cls)
    fun b x => ClaimBuckets.mem_pointsOf_push b x.1 j x.2 key cls, hempty]
  simp only [not_mem_nil, false_or, Prod.exists, mem_declaredEffects]
  constructor
  · rintro ⟨i, e, he, rfl, h⟩
    exact ⟨e, he, h⟩
  · rintro ⟨e, he, h⟩
    exact ⟨j, e, he, rfl, h⟩

variable {collection : Address × ℕ} {c : CollectionClaim batch.length}

theorem mem_bucket_claims : c ∈ (bucket batch).claimsOf collection ↔
      ∃ e ∈ (batch.get c.tx).iter, ClaimBuckets.Claims c.tx e collection c := by
  have hempty : (⟨∅, ∅⟩ : ClaimBuckets batch.length).claimsOf collection = [] := by
    simp [ClaimBuckets.claimsOf]
  rw [bucket, foldl_collects (P := fun b => c ∈ b.claimsOf collection)
    fun b x => ClaimBuckets.mem_claimsOf_push b x.1 x.2 collection c, hempty]
  simp only [not_mem_nil, false_or, Prod.exists, mem_declaredEffects]
  constructor
  · rintro ⟨i, e, he, hc⟩
    obtain rfl := hc.2.2.1
    exact ⟨e, he, hc⟩
  · rintro ⟨e, he, hc⟩
    exact ⟨c.tx, e, he, hc⟩

def EntriesConflict (batch : List EffectSet) (i j : Fin batch.length) : Prop :=
  ∃ e ∈ (batch.get i).iter, ∃ e' ∈ (batch.get j).iter, conflicts e e' = true

theorem EntriesConflict.symm (h : EntriesConflict batch i j) : EntriesConflict batch j i := by
  obtain ⟨e, he, e', he', hc⟩ := h
  exact ⟨e', he', e, he, conflicts_comm e e' ▸ hc⟩

abbrev Linked (batch : List EffectSet) : Fin batch.length → Fin batch.length → Prop :=
  Relation.ReflTransGen (EntriesConflict batch)

theorem linked_equivalence (batch : List EffectSet) : Equivalence (Linked batch) where
  refl _ := .refl
  symm h := by
    have : Std.Symm (EntriesConflict batch) := ⟨fun _ _ => EntriesConflict.symm⟩
    exact Relation.ReflTransGen.stdSymm.symm _ _ h
  trans := Relation.ReflTransGen.trans

theorem conflicts_iff_buckets : EntriesConflict batch i j ↔
      (∃ key c d, i ∈ ((bucket batch).pointsOf key).of c ∧
        j ∈ ((bucket batch).pointsOf key).of d ∧ c.conflictsWith d = true) ∨
      ∃ collection, ∃ c ∈ (bucket batch).claimsOf collection,
        ∃ d ∈ (bucket batch).claimsOf collection, c.tx = i ∧ d.tx = j ∧ c.Meets d := by
  constructor
  · rintro ⟨e, he, e', he', hc⟩
    rw [conflicts, Bool.and_eq_true, targetsOverlap_iff, compatible_eq_class, Bool.not_not] at hc
    obtain ⟨⟨key, hk, hk'⟩ | ⟨col, l, h, l', h', hcol, hcol', hi, hi', h1, h2⟩, hcls⟩ := hc
    · exact .inl ⟨key, _, _, mem_bucket_points.mpr ⟨e, he, hk, rfl⟩,
        mem_bucket_points.mpr ⟨e', he', hk', rfl⟩, hcls⟩
    · exact .inr ⟨col, ⟨i, l, h, _⟩, mem_bucket_claims.mpr ⟨e, he, hcol, hi, rfl, rfl⟩,
        ⟨j, l', h', _⟩, mem_bucket_claims.mpr ⟨e', he', hcol', hi', rfl, rfl⟩, rfl, rfl, hcls,
        h1, h2⟩
  · rintro (⟨key, c, d, hi, hj, hcls⟩ | ⟨col, c, hc, d, hd, rfl, rfl, hcls, h1, h2⟩)
    · obtain ⟨e, he, hk, rfl⟩ := mem_bucket_points.mp hi
      obtain ⟨e', he', hk', rfl⟩ := mem_bucket_points.mp hj
      refine ⟨e, he, e', he', ?_⟩
      rw [conflicts, Bool.and_eq_true, targetsOverlap_iff, compatible_eq_class, Bool.not_not]
      exact ⟨.inl ⟨key, hk, hk'⟩, hcls⟩
    · obtain ⟨e, he, hcol, hi, -, hce⟩ := mem_bucket_claims.mp hc
      obtain ⟨e', he', hcol', hi', -, hde⟩ := mem_bucket_claims.mp hd
      refine ⟨e, he, e', he', ?_⟩
      rw [conflicts, Bool.and_eq_true, targetsOverlap_iff, compatible_eq_class, Bool.not_not,
        ← hce, ← hde]
      exact ⟨.inr ⟨col, _, _, _, _, hcol, hcol', hi, hi', h1, h2⟩, hcls⟩

theorem bucket_claims_nonempty (h : c ∈ (bucket batch).claimsOf collection) : c.lo ≤ c.hi := by
  obtain ⟨e, -, -, hi, -⟩ := mem_bucket_claims.mp h
  exact claimInterval_le hi

variable {b : ClaimBuckets n}

theorem pointsOf_of_mem {p : PointClasses n}
    (h : (key, p) ∈ b.points.toList) : b.pointsOf key = p := by
  rw [ClaimBuckets.pointsOf, ExtTreeMap.mem_toList_iff_getElem?_eq_some.mp h, getD_some]

theorem claimsOf_of_mem {key : Address ×ₗ ℕ} {claims : List (CollectionClaim n)}
    (h : (key, claims) ∈ b.collections.toList) : b.claimsOf (ofLex key) = claims := by
  rw [ClaimBuckets.claimsOf, toLex_ofLex, ExtTreeMap.mem_toList_iff_getElem?_eq_some.mp h,
    getD_some]

theorem mem_points_of_member {c : ConflictClass} {i : Fin n}
    (h : i ∈ (b.pointsOf key).of c) : (key, b.pointsOf key) ∈ b.points.toList := by
  rw [ExtTreeMap.mem_toList_iff_getElem?_eq_some, ClaimBuckets.pointsOf]
  cases hk : b.points[key]? with
  | none => cases c <;> simp [ClaimBuckets.pointsOf, hk, of, empty] at h
  | some p => rfl

theorem mem_collections_of_member {c : CollectionClaim n} (h : c ∈ b.claimsOf collection) :
    (toLex collection, b.claimsOf collection) ∈ b.collections.toList := by
  rw [ExtTreeMap.mem_toList_iff_getElem?_eq_some, ClaimBuckets.claimsOf]
  cases hk : b.collections[toLex collection]? with
  | none => simp [ClaimBuckets.claimsOf, hk] at h
  | some p => rfl

theorem components_same_iff (batch : List EffectSet) (i j : Fin batch.length) :
    (components batch).Same i j ↔ Linked batch i j := by
  have hE := linked_equivalence batch
  constructor
  · let Within : Forest batch.length → Prop := fun f => ∀ i j, f.Same i j → Linked batch i j
    refine List.foldlRecOn (motive := Within) _ _
      (List.foldlRecOn (motive := Within) _ _ ?_ ?_) ?_ i j
    · intro i j h
      simp only [Forest.Same, Forest.rootOf_singletons] at h
      exact h ▸ .refl
    · intro f hf entry hentry
      refine entry.2.mergeInto_within hE f hf fun c d i j hi hj hcd => .single ?_
      rw [← pointsOf_of_mem hentry] at hi hj
      exact conflicts_iff_buckets.mpr (.inl ⟨_, c, d, hi, hj, hcd⟩)
    · intro f hf entry hentry
      refine (sweepCollection_spec hE f hf ?_ ?_).1
      · intro c hc d hd hm
        rw [← claimsOf_of_mem hentry] at hc hd
        exact .single (conflicts_iff_buckets.mpr (.inr ⟨_, c, hc, d, hd, rfl, rfl, hm⟩))
      · intro c hc
        rw [← claimsOf_of_mem hentry] at hc
        exact bucket_claims_nonempty hc
  · intro h
    induction h with
    | refl => rfl
    | tail _ hconf ih =>
      refine ih.trans ?_
      rcases conflicts_iff_buckets.mp hconf with
        ⟨key, c, d, hi, hj, hcd⟩ | ⟨col, c, hc, d, hd, rfl, rfl, hm⟩
      · refine Forest.coarsens_foldl id mergeCollection
          (fun f entry => coarsens_sweepCollection entry.2 f) _ _ _ _ ?_
        exact Forest.same_foldl mergePoint (fun f entry => entry.2.coarsens_mergeInto f)
          (mem_points_of_member hi) (fun f => mergeInto_same _ f hi hj hcd) _
      · refine Forest.same_foldl mergeCollection (fun f entry => coarsens_sweepCollection entry.2 f)
          (mem_collections_of_member hc) (fun f => ?_) _
        exact (sweepCollection_spec (E := fun _ _ => True) ⟨fun _ => trivial, fun _ => trivial,
          fun _ _ => trivial⟩ f (fun _ _ _ => trivial) (fun _ _ _ _ _ => trivial)
          (fun _ hc => bucket_claims_nonempty hc)).2 c hc d hd hm

def groupOf (members : List (Fin n)) : Option (List (Fin n)) :=
  if members = [] then none else some members

theorem gather_foldl (f : Forest n) (l done : List (Fin n))
    (state : Forest n × ExtTreeMap (Fin n) (List (Fin n)))
    (hroot : ∀ k, state.1.rootOf k = f.rootOf k)
    (hdone : ∀ r, state.2[r]? = groupOf (done.filter fun i => f.rootOf i = r)) (r : Fin n) :
    (l.foldl gatherIndex state).2[r]? = groupOf ((done ++ l).filter fun i => f.rootOf i = r) := by
  induction l generalizing done state with
  | nil => simpa using hdone r
  | cons i l ih =>
    rw [foldl_cons, show done ++ i :: l = done ++ [i] ++ l by simp]
    refine ih (done ++ [i]) (gatherIndex state i) (fun k => ?_) (fun r' => ?_)
    · exact (state.1.find_rootOf i k).trans (hroot k)
    · simp only [gatherIndex, getElem?_alter_eq, Forest.find_fst, hroot, filter_append,
        filter_singleton]
      by_cases hr : f.rootOf i = r'
      · subst hr
        simp only [if_true, hdone, groupOf, decide_true, append_eq_nil_iff]
        split <;> simp_all
      · simp [hr, hdone, groupOf]

theorem getElem?_gather (f : Forest n) (r : Fin n) :
    (gather f)[r]? = groupOf ((List.finRange n).filter fun i => f.rootOf i = r) :=
  gather_foldl f (List.finRange n) [] (f, ∅) (fun _ => rfl) (fun r => by simp [groupOf]) r

variable {f : Forest n} {r : Fin n} {g : List (Fin n)}

theorem mem_gather : (r, g) ∈ (gather f).toList ↔
      g = (List.finRange n).filter (fun i => f.rootOf i = r) ∧ g ≠ [] := by
  rw [ExtTreeMap.mem_toList_iff_getElem?_eq_some, getElem?_gather, groupOf]
  split
  · rename_i h
    simp only [reduceCtorEq, false_iff, not_and, not_not]
    exact fun hg => hg.trans h
  · rename_i h
    rw [some.injEq]
    exact ⟨fun hg => ⟨hg.symm, hg ▸ h⟩, fun hg => hg.1.symm⟩

theorem mem_group {i : Fin n} (h : (r, g) ∈ (gather f).toList) : i ∈ g ↔ f.rootOf i = r := by
  rw [(mem_gather.mp h).1]
  simp

theorem root_group (i : Fin n) :
    (f.rootOf i, (List.finRange n).filter fun k => f.rootOf k = f.rootOf i) ∈ (gather f).toList :=
  mem_gather.mpr ⟨rfl, ne_nil_of_mem (a := i) (by simp)⟩

theorem gather_flatten (f : Forest n) :
    ((gather f).toList.map Prod.snd).flatten.Perm (List.finRange n) := by
  refine (perm_ext_iff_of_nodup ?_ (nodup_finRange n)).mpr fun i => ?_
  · rw [nodup_flatten, pairwise_map]
    refine ⟨fun g hg => ?_, ?_⟩
    · obtain ⟨⟨r, g⟩, hrg, rfl⟩ := List.mem_map.mp hg
      rw [(mem_gather.mp hrg).1]
      exact (nodup_finRange n).filter _
    · -- two listed groups have different roots, and a member has one root
      have hkeys := pairwise_map.mp (nodup_iff_pairwise_ne.mp (nodup_keys (gather f)))
      refine hkeys.imp_of_mem fun {a b} ha hb hne i hia hib => ?_
      exact hne (((mem_group ha).mp hia).symm.trans ((mem_group hb).mp hib))
  · simp only [List.mem_finRange, iff_true, List.mem_flatten, List.mem_map]
    exact ⟨_, ⟨_, root_group i, rfl⟩, by simp⟩

/-- `conflict_groups` lists the connected components of the pairwise conflict
relation: every entry stands in exactly one group, two entries share a group
exactly when a chain of pairwise conflicts links them, and members ascend. -/
theorem conflictGroups_connected_components (batch : List EffectSet) :
    (conflictGroups batch).flatten.Perm (List.finRange batch.length) ∧
    (∀ i j, (∃ g ∈ conflictGroups batch, i ∈ g ∧ j ∈ g) ↔
      Relation.ReflTransGen (fun i j => ∃ e ∈ (batch.get i).iter, ∃ e' ∈ (batch.get j).iter,
        conflicts e e' = true) i j) ∧
    (∀ g ∈ conflictGroups batch, g ≠ [] ∧ g.Pairwise (· < ·)) := by
  refine ⟨gather_flatten _, fun i j => ?_, fun g hg => ?_⟩
  · refine Iff.trans ?_ (components_same_iff batch i j)
    simp only [conflictGroups, List.mem_map]
    constructor
    · rintro ⟨g, ⟨⟨r, g⟩, hrg, rfl⟩, hi, hj⟩
      exact ((mem_group hrg).mp hi).trans ((mem_group hrg).mp hj).symm
    · intro h
      exact ⟨_, ⟨_, root_group i, rfl⟩, by simp, by simpa using h.symm⟩
  · obtain ⟨⟨r, g⟩, hrg, rfl⟩ := List.mem_map.mp hg
    obtain ⟨hg, hne⟩ := mem_gather.mp hrg
    refine ⟨hne, ?_⟩
    rw [hg]
    exact (pairwise_lt_finRange _).filter _

end HyperscaleVm.Kernel

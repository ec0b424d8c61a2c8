import HyperscaleVm.Effects.Publish.Conditions
import HyperscaleVm.Effects.Publish.Levels
import HyperscaleVm.Library.Refusals

/-!
# Depth, at the gate and in the evaluator

The gate walks the terms of a signature as they are written, the evaluator counts its own
recursion, and the encoder counts the levels of what the evaluator hands it.
-/

namespace HyperscaleVm.Effects.Publish
open List Library

/-- The refusals left: none for depth and, where the encoder has room, no panic of it. -/
def OfShape (fits : Prop) : EvalError → Prop
  | .expressionTooDeep | .clausesTooDeep => False
  | .encodingPanic => ¬fits
  | _ => True

attribute [simp] OfShape

abbrev Plain (fits : Prop) {α : Type} (x : Except EvalError α) : Prop := Refuses (OfShape fits) x

/-- Every answer of a step is as `Q` says, and every refusal one of those left. -/
def Runs (fits : Prop) {α : Type} (Q : α → Prop) (x : Metered α) : Prop :=
  ∀ m, Plain fits (x m) ∧ ∀ a m', x m = .ok (a, m') → Q a

abbrev Shallow (fits : Prop) {α : Type} (x : Metered α) : Prop := Runs fits (fun _ => True) x

variable {fits : Prop} {α : Type}

@[simp] theorem plain_mismatch (expected : String) (v : Value) :
    Plain fits (mismatch expected v : Except EvalError α) := .error trivial

variable (v : Value)

@[simp] theorem asU64_plain : Plain fits (asU64 v) := by cases v <;> simp [asU64]

@[simp] theorem asU128_plain : Plain fits (asU128 v) := by cases v <;> simp [asU128]

@[simp] theorem asCap_plain : Plain fits (asCap v) := by
  refine (asU128_plain v).bind fun cap _ => ?_
  split <;> simp

@[simp] theorem asAddress_plain : Plain fits (asAddress v) := by cases v <;> simp [asAddress]

@[simp] theorem asKey_plain : Plain fits (asKey v) := by cases v <;> simp [asKey]

@[simp] theorem asBool_plain : Plain fits (asBool v) := by cases v <;> simp [asBool]

@[simp] theorem fields_plain : Plain fits (fields v) := by cases v <;> simp [fields]

@[simp] theorem elements_plain : Plain fits (elements v) := by cases v <;> simp [elements]

@[simp] theorem bucketParts_plain : Plain fits (bucketParts v) := by cases v <;> simp [bucketParts]

@[simp] theorem asResource_plain (a : Address) : Plain fits (asResource a) := by
  unfold asResource
  split <;> simp

@[simp] theorem asDenomination_plain : Plain fits (asDenomination v) := by
  cases v <;> simp [asDenomination]

@[simp] theorem asClaim_plain : Plain fits (asClaim v) := by
  unfold asClaim
  split <;> simp

@[simp] theorem edgeIds_plain (content : EdgeContent) : Plain fits (edgeIds content) := by
  cases content <;> simp [edgeIds]

variable (values : List Value)

@[simp] theorem idSet_plain : Plain fits (idSet values) := by
  refine Refuses.bind (.foldlM_each fun v _ ids => (asU64_plain v).bind fun id _ => ?_)
    fun ids _ => ?_
  · split
    · exact .error trivial
    · exact .ok _
  · split <;> simp

@[simp] theorem sole_plain : Plain fits (sole values) := by
  unfold sole
  split <;> simp

@[simp] theorem fieldAt_plain (index : ℕ) : Plain fits (fieldAt values index) := by
  unfold fieldAt
  split <;> simp

theorem indexed_plain (values : List α) (index : ℕ) {miss : EvalError}
    (h : OfShape fits miss) : Plain fits (indexed values index miss) := by
  unfold indexed
  split
  · exact .ok _
  · exact .error h

@[simp] theorem addValues_plain (v w : Value) : Plain fits (addValues v w) := by
  unfold addValues
  repeat' split
  all_goals simp

@[simp] theorem lessThan_plain (v w : Value) : Plain fits (lessThan v w) := by
  unfold lessThan
  split <;> simp

@[simp] theorem equals_plain (v w : Value) : Plain fits (equals v w) := by
  unfold equals
  repeat' split
  all_goals simp

@[simp] theorem asPair_plain : Plain fits (asPair v) := by
  unfold asPair
  split <;> simp

theorem asPair_ok {found : Value × Value} (h : asPair v = .ok found) :
    v = .tuple (.cons found.1 (.cons found.2 .nil)) := by
  unfold asPair at h
  split at h
  · cases h
    rfl
  · cases h

@[simp] theorem reachableSlot_plain (point : Bool) (named : ℕ) :
    Plain fits (reachableSlot point named) := by
  unfold reachableSlot
  split
  · dsimp only
    generalize (if PACKAGE_SLOT_BASE ≤ named then decide (named < KERNEL_SLOT_BASE)
      else if point = true then named == VAULT else named == NF_VAULT) = holds
    cases holds <;> simp
  · exact .error trivial

@[simp] theorem selfResource_plain {H : Hasher} {E : EvalInputs} (kind : ResourceKind)
    (material : List Value) (grants : GrantsExpr) :
    Plain fits (selfResource H E kind material grants) := by
  unfold selfResource
  split <;> simp

theorem addValues_leaf {v w sum : Value} (h : addValues v w = .ok sum) :
    Wire.isLeaf sum = true := by
  unfold addValues at h
  repeat' split at h
  all_goals cases h
  all_goals rfl

theorem lessThan_leaf {v w less : Value} (h : lessThan v w = .ok less) :
    Wire.isLeaf less = true := by
  unfold lessThan at h
  split at h
  all_goals cases h
  all_goals rfl

theorem equals_leaf {v w same : Value} (h : equals v w = .ok same) : Wire.isLeaf same = true := by
  unfold equals at h
  repeat' split at h
  all_goals cases h
  all_goals rfl

theorem selfResource_leaf {H : Hasher} {E : EvalInputs} {kind : ResourceKind}
    {material : List Value} {grants : GrantsExpr} {resource : Value}
    (h : selfResource H E kind material grants = .ok resource) : Wire.isLeaf resource = true := by
  unfold selfResource at h
  split at h
  all_goals cases h
  all_goals rfl

theorem member_levels {vs : Values} {w : Value} (h : w ∈ vs.toList) :
    Wire.valueLevels w ≤ Wire.valuesLevels vs := by
  rw [← Wire.deepest_toList]
  exact deepest_le.mp le_rfl w h

theorem part_levels {w u : Value} {values : List Value}
    (h : fields w = .ok values ∨ elements w = .ok values) (hu : u ∈ values) :
    Wire.valueLevels u + 2 ≤ Wire.valueLevels w := by
  cases w with
  | tuple vs | list vs =>
    rcases h with ⟨⟨⟩⟩ | ⟨⟨⟩⟩
    have hmember := member_levels hu
    rw [Wire.valueLevels]
    omega
  | _ => rcases h with ⟨⟨⟩⟩ | ⟨⟨⟩⟩

theorem fieldAt_mem {values : List Value} {index : ℕ} {w : Value}
    (h : fieldAt values index = .ok w) : w ∈ values := by
  unfold fieldAt at h
  split at h
  · rename_i hw
    cases h
    exact mem_of_getElem? hw
  · cases h

theorem sole_mem {values : List Value} {w : Value} (h : sole values = .ok w) : w ∈ values := by
  unfold sole at h
  split at h
  · cases h
    exact mem_singleton_self w
  · cases h

theorem edgeIds_levels {content : EdgeContent} {ids : Value} (h : edgeIds content = .ok ids) :
    Wire.valueLevels ids ≤ 3 := by
  cases content with
  | fungible => cases h
  | nonFungible numbers =>
    cases h
    have hnumbers : Wire.valuesLevels (.ofList (numbers.map .u64)) ≤ 1 := by
      rw [← Wire.deepest_toList, Values.toList_ofList]
      exact deepest_le.mpr fun w hw => by
        obtain ⟨id, -, rfl⟩ := mem_map.mp hw
        exact le_rfl
    change 2 + _ ≤ 3
    omega

theorem indexed_mem {values : List α} {index : ℕ} {miss : EvalError} {a : α}
    (h : indexed values index miss = .ok a) : a ∈ values := by
  unfold indexed at h
  split at h
  · rename_i ha
    cases h
    exact mem_of_getElem? ha
  · cases h

namespace Runs

variable {β : Type} {P : α → Prop} {Q : β → Prop}

theorem mono {P' : α → Prop} {x : Metered α} (h : Runs fits P x) (hP : ∀ a, P a → P' a) :
    Runs fits P' x := fun m => ⟨(h m).1, fun a m' ha => hP a ((h m).2 a m' ha)⟩

theorem pure {a : α} (h : P a) : Runs fits P (Pure.pure a) := fun _ => ⟨.ok _, fun a m' ha => by
  cases ha
  exact h⟩

theorem free {x : Except EvalError α} (h : Plain fits x) :
    Runs fits (fun a => x = .ok a) (Effects.free x) := by
  refine fun m => ⟨h.map, fun a m' ha => ?_⟩
  cases x with
  | error e => cases ha
  | ok a' =>
    cases ha
    rfl

theorem refuse {e : EvalError} (h : OfShape fits e) : Runs fits P (Effects.free (.error e)) :=
  (free (.error h)).mono fun _ ha => by cases ha

variable {x : Metered α} {f : α → Metered β}

theorem bind (hx : Runs fits P x) (hf : ∀ a, P a → Runs fits Q (f a)) : Runs fits Q (x >>= f) := by
  refine fun m =>
    ⟨(hx m).1.bind fun p hp => (hf p.1 ((hx m).2 p.1 p.2 hp) p.2).1, fun b m' hb => ?_⟩
  obtain ⟨⟨a, m₁⟩, ha, hb⟩ := bind_ok.mp hb
  exact (hf a ((hx m).2 a m₁ ha) m₁).2 b m' hb

theorem last {x : Except EvalError α} (h : Plain fits x) : Shallow fits (Effects.free x) :=
  (free h).mono fun _ _ => trivial

theorem read {x : Except EvalError α} (h : Plain fits x) (hf : ∀ a, x = .ok a → Runs fits Q (f a)) :
    Runs fits Q (Effects.free x >>= f) := (free h).bind hf

theorem ite {c : Prop} [Decidable c] {y : Metered α} (hx : Runs fits P x) (hy : Runs fits P y) :
    Runs fits P (if c then x else y) := by
  split
  · exact hx
  · exact hy

theorem spend (units : ℕ) : Shallow fits (Effects.spend units) := by
  refine fun m => ⟨?_, fun _ _ _ => trivial⟩
  unfold Effects.spend
  repeat' split
  all_goals simp

theorem charge : Shallow fits Effects.charge := by
  refine fun m => ⟨?_, fun _ _ _ => trivial⟩
  unfold Effects.charge
  split <;> simp

variable {P : Cow → Prop} {v : Value}

theorem built (h : P ⟨v, true⟩) : Runs fits P (Effects.built v) := (spend _).bind fun _ _ => pure h

theorem forced (cow : Cow) : Runs fits (fun v => v = cow.value) (Effects.forced cow) :=
  .ite (pure rfl) ((spend _).bind fun _ _ => pure rfl)

theorem find (key : Value) (pairs : List Value) : Runs fits (fun hit => ∀ v, hit = some v →
    .tuple (.cons key (.cons v .nil)) ∈ pairs) (Effects.find key pairs) := by
  induction pairs with
  | nil => exact pure fun v hv => by cases hv
  | cons pair pairs ih =>
    rw [Effects.find]
    refine (spend _).bind fun _ _ => .read (asPair_plain _) fun found hfound => ?_
    split
    · rename_i hkey
      refine pure fun v hv => ?_
      cases hv
      rw [← hkey, asPair_ok _ hfound]
      exact mem_cons_self
    · exact ih.mono fun hit hhit v hv => mem_cons_of_mem _ (hhit v hv)

end Runs

variable {depth : ℕ}

theorem enter_shallow (h : depth ≤ MAX_EXPR_DEPTH) (expr : Expr) :
    Shallow fits (enter depth expr) := by
  unfold enter
  rw [if_neg (Nat.not_lt.mpr h)]
  exact (Runs.pure (P := fun _ => True) trivial).bind fun _ _ => .spend _

theorem canonicalBytes_shallow {v : Value} (h : fits → Wire.valueLevels v ≤ 64) :
    Shallow fits (canonicalBytes v) := by
  refine .last ?_
  split
  · exact .ok _
  · rename_i hdeep
    exact .error fun hfits => hdeep (h hfits)

/-- What a term answers takes the encoder at most so many levels. -/
abbrev Within (fits : Prop) (most : ℕ) (v : Value) : Prop := fits → Wire.valueLevels v ≤ most

abbrev Encodes (fits : Prop) (most : ℕ) (x : Metered Cow) : Prop :=
  Runs fits (fun cow => Within fits most cow.value) x

theorem Within.leaf {v : Value} {most : ℕ} (hmost : 3 ≤ most) (h : Wire.isLeaf v = true) :
    Within fits most v :=
  fun _ => (Wire.leaf_levels h).trans hmost

theorem Within.below {v w : Value} {most : ℕ} (hw : Within fits most w)
    (h : Wire.valueLevels v + 2 ≤ Wire.valueLevels w) : Within fits most v := by
  intro hfits
  have hmost := hw hfits
  omega

section

variable {H : Hasher} {E : EvalInputs} {ρ : List Value} {depth most : ℕ}

theorem evalMaterial_shallow (hmost : most ≤ 64) : {material : Exprs} → (∀ e ∈ material.toList,
      Encodes fits most (evalExpr H E ρ depth e)) →
    Shallow fits (evalMaterial H E ρ depth material)
  | .nil, _ => .pure trivial
  | .cons e es, h => by
    obtain ⟨he, hes⟩ := forall_mem_cons.mp h
    rw [evalMaterial]
    exact he.bind fun part hpart => (Runs.spend _).bind fun _ _ =>
      (canonicalBytes_shallow fun hfits => (hpart hfits).trans hmost).bind fun _ _ =>
      (evalMaterial_shallow hmost hes).bind fun _ _ => .pure trivial

theorem evalAll_shallow : {items : Exprs} → (∀ e ∈ items.toList,
      Encodes fits most (evalExpr H E ρ depth e)) →
    Runs fits (fun values => ∀ v ∈ values, Within fits most v) (evalAll H E ρ depth items)
  | .nil, _ => .pure (by simp)
  | .cons e es, h => by
    obtain ⟨he, hes⟩ := forall_mem_cons.mp h
    rw [evalAll]
    refine he.bind fun cow hcow => (Runs.forced _).bind fun v hv =>
      (evalAll_shallow hes).bind fun values hvalues => .pure ?_
    exact forall_mem_cons.mpr ⟨hv ▸ hcow, hvalues⟩

variable {slot : SlotRef}

theorem evalSlot_shallow {point : Bool} {Q : Cow → Prop}
    (h : ∀ e ∈ slot.isReached.toList, Runs fits Q (evalExpr H E ρ depth e)) :
    Shallow fits (evalSlot H E ρ point depth slot) := by
  cases slot with
  | fixed slot => exact .pure trivial
  | reached e =>
    rw [evalSlot]
    exact (h e (by simp [SlotRef.isReached])).bind fun _ _ => .read (asU64_plain _) fun _ _ =>
      .last (reachableSlot_plain _ _)

variable {expr : Expr}

/-- A term within the cap refuses so only where a child of it does, or is material the encoder
has no room for. -/
theorem evalExpr_of_children (most : ℕ) (hdepth : depth ≤ MAX_EXPR_DEPTH)
    (hleast : 33 ≤ most) (hmost : most ≤ 64)
    (hliteral : ∀ v, expr = .literal v → Within fits most v)
    (hreads : ∀ v ∈ E.args ++ E.record.config ++ ρ, Within fits most v) (hsub : ∀ e ∈ expr.children,
      Encodes fits most (evalExpr H E ρ (depth + 1) e)) :
    Encodes fits (if groups expr then most + 2 else most) (evalExpr H E ρ depth expr) := by
  have hleaf {v : Value} (h : Wire.isLeaf v = true) :
      Encodes fits most (built v) :=
    .built (.leaf (by omega) h)
  have hinput {values : List Value} (h : ∀ v ∈ values, Within fits most v) {index : ℕ}
      {miss : EvalError} (hmiss : OfShape fits miss) :
      Encodes fits most (do return ⟨← free (indexed values index miss), false⟩) :=
    .read (indexed_plain _ _ hmiss) fun v hv => .pure (h v (indexed_mem hv))
  simp only [forall_mem_append] at hreads
  rw [evalExpr.eq_def]
  refine (enter_shallow hdepth expr).bind fun _ _ => ?_
  cases expr with
  | literal value => exact .pure (hliteral value rfl)
  | arg => exact hinput hreads.1.1 trivial
  | config => exact hinput hreads.1.2 trivial
  | binding => exact hinput hreads.2 trivial
  | selfAddr | freshId | freshKey => exact hleaf rfl
  | selfRecord =>
    change Encodes fits most _
    dsimp only
    split
    · exact hleaf rfl
    · exact .refuse trivial
  | ite cond then_ otherwise =>
    obtain ⟨hcond, hrest⟩ := forall_mem_cons.mp hsub
    obtain ⟨hthen, hother⟩ := forall_mem_cons.mp hrest
    exact hcond.bind fun _ _ => .read (asBool_plain _) fun _ _ =>
      .ite hthen (hother _ mem_cons_self)
  | field tuple index =>
    refine (hsub tuple mem_cons_self).bind fun cow hcow =>
      .read ((fields_plain _).bind fun _ _ => fieldAt_plain _ _) fun v hv =>
      (Runs.spend _).bind fun _ _ => .built ?_
    obtain ⟨values, hvalues, hv⟩ := bind_ok.mp hv
    exact hcow.below (part_levels (.inl hvalues) (fieldAt_mem hv))
  | resourceOf bucket =>
    exact (hsub bucket mem_cons_self).bind fun _ _ => .read (bucketParts_plain _) fun _ _ =>
      hleaf rfl
  | idsOf bucket =>
    refine (hsub bucket mem_cons_self).bind fun _ _ =>
      .read ((bucketParts_plain _).bind fun _ _ => edgeIds_plain _) fun ids hids => .built ?_
    obtain ⟨parts, -, hids⟩ := bind_ok.mp hids
    exact fun _ => (edgeIds_levels hids).trans (show 3 ≤ most by omega)
  | len list =>
    exact (hsub list mem_cons_self).bind fun _ _ => .read (elements_plain _) fun _ _ => hleaf rfl
  | only list =>
    refine (hsub list mem_cons_self).bind fun cow hcow =>
      .read ((elements_plain _).bind fun _ _ => sole_plain _) fun v hv =>
      (Runs.spend _).bind fun _ _ => .built ?_
    obtain ⟨values, hvalues, hv⟩ := bind_ok.mp hv
    exact hcow.below (part_levels (.inr hvalues) (sole_mem hv))
  | lookup map key =>
    obtain ⟨hmap, hkey⟩ := forall_mem_cons.mp hsub
    refine hmap.bind fun cow hcow => .read (elements_plain _) fun pairs hpairs =>
      (hkey key mem_cons_self).bind fun _ _ => (Runs.find _ _).bind fun hit hhit => ?_
    cases hit with
    | none => exact .refuse trivial
    | some hit =>
      refine (Runs.spend _).bind fun _ _ => .built ?_
      have hpair := hcow.below (part_levels (.inr hpairs) (hhit hit rfl))
      exact hpair.below (part_levels (.inl rfl) (by simp [Values.toList]))
  | contains map key =>
    obtain ⟨hmap, hkey⟩ := forall_mem_cons.mp hsub
    exact hmap.bind fun _ _ => .read (elements_plain _) fun _ _ =>
      (hkey key mem_cons_self).bind fun _ _ => (Runs.find _ _).bind fun _ _ => hleaf rfl
  | selfResource kind material grants =>
    exact (evalMaterial_shallow hmost hsub).bind fun _ _ =>
      .read (selfResource_plain _ _ _) fun v hv => hleaf (selfResource_leaf hv)
  | childKey owner slot material =>
    obtain ⟨howner, hrest⟩ := forall_mem_cons.mp hsub
    obtain ⟨hslot, hmaterial⟩ := forall_mem_append.mp hrest
    exact howner.bind fun _ _ => .read (asAddress_plain _) fun _ _ => (evalSlot_shallow hslot).bind
      fun _ _ => (evalMaterial_shallow hmost hmaterial).bind fun _ _ => hleaf rfl
  | orderKey owner slot material =>
    obtain ⟨howner, hmaterial⟩ := forall_mem_cons.mp hsub
    exact howner.bind fun _ _ => .read (asAddress_plain _) fun _ _ =>
      (evalMaterial_shallow hmost hmaterial).bind fun _ _ => hleaf rfl
  | pack hi lo =>
    obtain ⟨hhi, hlo⟩ := forall_mem_cons.mp hsub
    exact hhi.bind fun _ _ => .read (asU64_plain _) fun _ _ => (hlo lo mem_cons_self).bind
      fun _ _ => .read (asU64_plain _) fun _ _ => hleaf rfl
  | list items | tuple items =>
    refine (evalAll_shallow hsub).bind fun values hvalues => .built fun hfits => ?_
    have hitems : Wire.valuesLevels (.ofList values) ≤ most := by
      rw [← Wire.deepest_toList, Values.toList_ofList]
      exact deepest_le.mpr fun v hv => hvalues v hv hfits
    change 2 + _ ≤ most + 2
    omega
  | nfBucket resource ids =>
    obtain ⟨hresource, hids⟩ := forall_mem_cons.mp hsub
    exact hresource.bind fun _ _ =>
      .read ((asAddress_plain _).bind fun _ _ => asResource_plain _) fun _ _ =>
      (hids ids mem_cons_self).bind fun _ _ =>
      .read ((elements_plain _).bind fun _ _ => idSet_plain _) fun _ _ => hleaf rfl
  | not inner =>
    exact (hsub inner mem_cons_self).bind fun _ _ => .read (asBool_plain _) fun _ _ => hleaf rfl
  | and left right =>
    obtain ⟨hleft, hright⟩ := forall_mem_cons.mp hsub
    exact hleft.bind fun _ _ => .read (asBool_plain _) fun _ _ => .ite
      ((hright right mem_cons_self).bind fun _ _ => .read (asBool_plain _) fun _ _ => hleaf rfl)
      (hleaf rfl)
  | or left right =>
    obtain ⟨hleft, hright⟩ := forall_mem_cons.mp hsub
    exact hleft.bind fun _ _ => .read (asBool_plain _) fun _ _ => .ite (hleaf rfl)
      ((hright right mem_cons_self).bind fun _ _ => .read (asBool_plain _) fun _ _ => hleaf rfl)
  | add left right =>
    obtain ⟨hleft, hright⟩ := forall_mem_cons.mp hsub
    exact hleft.bind fun _ _ => (hright right mem_cons_self).bind fun _ _ =>
      .read (addValues_plain _ _) fun _ h => hleaf (addValues_leaf h)
  | eq left right =>
    obtain ⟨hleft, hright⟩ := forall_mem_cons.mp hsub
    exact hleft.bind fun _ _ => (hright right mem_cons_self).bind fun _ _ =>
      (Runs.spend _).bind fun _ _ => .read (equals_plain _ _) fun _ h => hleaf (equals_leaf h)
  | lt left right =>
    obtain ⟨hleft, hright⟩ := forall_mem_cons.mp hsub
    exact hleft.bind fun _ _ => (hright right mem_cons_self).bind fun _ _ =>
      .read (lessThan_plain _ _) fun _ h => hleaf (lessThan_leaf h)

-- The gate's bound grows with every level and stops at the cap: the induction is on what is left.
theorem evalExpr_runs {depth bound nested : ℕ} (hdepth : depth ≤ bound) (hnested : nested ≤ 15)
    {expr : Expr} (h : Settled fits E ρ bound nested expr) :
    Encodes fits (33 + 2 * nested) (evalExpr H E ρ depth expr) := by
  obtain ⟨hbound, hliteral, -⟩ := checkExprBounds_ok h.gated
  obtain ⟨hpos, hchildren⟩ := h.inner
  have hinner : inner expr nested ≤ nested := by
    unfold inner
    split <;> omega
  refine (evalExpr_of_children (33 + 2 * inner expr nested) (hdepth.trans hbound)
    (by omega) (by omega) (fun v hv _ => ?_) (fun v hv hfits => (h.reads hfits v hv).trans
      (by omega)) fun e he => evalExpr_runs (Nat.succ_le_succ hdepth) (hinner.trans hnested)
        (hchildren e he)).mono fun cow hcow hfits => (hcow hfits).trans ?_
  · have hlevels := Wire.valueLevels_le.value v 16 (hliteral v hv)
    omega
  · unfold inner
    split
    · rename_i hgroups
      have := hpos hfits hgroups
      omega
    · omega
termination_by MAX_EXPR_DEPTH + 1 - bound

abbrev Terms (fits : Prop) (E : EvalInputs) (ρ : List Value) (terms : List Expr) : Prop :=
  ∀ e ∈ terms, Settled fits E ρ 0 15 e

theorem evalTop_shallow {bound : ℕ} (h : Settled fits E ρ bound 15 expr) :
    Shallow fits (evalExpr H E ρ 0 expr) :=
  (evalExpr_runs bound.zero_le le_rfl h).mono fun _ _ => trivial

theorem evalCollection_shallow {owner : Address} {material : Exprs}
    (hslot : Terms fits E ρ slot.isReached.toList) (hmaterial : Terms fits E ρ material.toList) :
    Shallow fits (evalCollection H E ρ owner slot material) :=
  (evalSlot_shallow fun e he => evalTop_shallow (hslot e he)).bind fun _ _ =>
    (evalMaterial_shallow le_rfl fun e he => (evalExpr_runs le_rfl le_rfl (hmaterial e he)).mono
      fun _ h hfits => (h hfits).trans (by decide)).bind fun _ _ => (Runs.spend _).bind fun _ _ =>
        .pure trivial

variable {target : TargetExpr}

theorem evalTarget_shallow (hparts : Terms fits E ρ target.parts) :
    Shallow fits (evalTarget H E ρ target) := by
  cases target with
  | point key =>
    exact (evalTop_shallow (hparts key mem_cons_self)).bind fun _ _ =>
      .read (asKey_plain _) fun _ _ => .pure trivial
  | entry owner collection material order =>
    simp only [TargetExpr.parts, cons_append, forall_mem_cons, forall_mem_append,
      append_assoc] at hparts
    obtain ⟨howner, hslot, hmaterial, horder, -⟩ := hparts
    exact (evalTop_shallow howner).bind fun _ _ => .read (asAddress_plain _) fun _ _ =>
      (evalCollection_shallow hslot hmaterial).bind fun _ _ =>
        (evalTop_shallow horder).bind fun _ _ =>
      .read (asU128_plain _) fun _ _ => .pure trivial
  | range owner collection material lo hi cap =>
    simp only [TargetExpr.parts, cons_append, forall_mem_cons, forall_mem_append,
      append_assoc] at hparts
    obtain ⟨howner, hslot, hmaterial, hlo, hhi, hcap, -⟩ := hparts
    have hordered (lo hi : ℕ) :
        Plain fits (if lo > hi then .error .invalidRange else .ok () : Except EvalError Unit) := by
      split <;> simp
    exact (evalTop_shallow howner).bind fun _ _ => .read (asAddress_plain _) fun _ _ =>
      (evalCollection_shallow hslot hmaterial).bind fun _ _ => (evalTop_shallow hlo).bind fun _ _ =>
      .read (asU128_plain _) fun _ _ => (evalTop_shallow hhi).bind fun _ _ =>
      .read (asU128_plain _) fun _ _ => .read (hordered _ _) fun _ _ =>
      (evalTop_shallow hcap).bind fun _ _ => .read (asCap_plain _) fun _ _ => .pure trivial

variable {mode : ModeExpr}

theorem evalMode_shallow (h : Terms fits E ρ (modeTerms mode)) :
    Shallow fits (evalMode H E ρ mode) := by
  cases mode with
  | read | delta | write => exact .pure trivial
  | reserve amount =>
    exact (evalTop_shallow (h amount mem_cons_self)).bind fun _ _ =>
      .read (asU128_plain _) fun _ _ =>
      .pure trivial

theorem evalHolds_shallow {expr : Option Expr} (h : Terms fits E ρ expr.toList) :
    Shallow fits (evalHolds H E ρ expr) := by
  cases expr with
  | none => exact .pure trivial
  | some expr =>
    exact ((evalTop_shallow (h expr mem_cons_self)).bind fun _ _ =>
      .last (asDenomination_plain _)).bind fun _ _ => .pure trivial

theorem keyed_shallow {keyed : Expr} (hparts : Terms fits E ρ target.parts)
    (hkeyed : keyingResource target = some keyed) : Shallow fits (evalExpr H E ρ 0 keyed) := by
  have head_mem {material : Exprs} (hm : material.head? = some keyed) :
      keyed ∈ material.toList := by
    cases material with
    | nil => cases hm
    | cons e es =>
      cases hm
      exact mem_cons_self
  cases target with
  | point key =>
    cases key with
    | childKey owner slot material =>
      exact evalTop_shallow ((hparts _ mem_cons_self).inner.2 keyed (by
        simp [Expr.children, head_mem hkeyed]))
    | _ => cases hkeyed
  | entry | range =>
    exact evalTop_shallow (hparts keyed (by simp [TargetExpr.parts, head_mem hkeyed]))

variable {reach : Option GrantedBehaviour}

theorem evalReach_shallow (hparts : Terms fits E ρ target.parts) :
    Shallow fits (evalReach H E ρ reach target) := by
  cases reach with
  | none => exact .pure trivial
  | some behaviour =>
    unfold evalReach
    dsimp only
    split
    · exact .last (.error trivial)
    · rename_i keyed hkeyed
      exact ((keyed_shallow hparts hkeyed).bind fun _ _ => .last (asDenomination_plain _)).bind
        fun _ _ => .pure trivial

theorem evalGuard_shallow {guard : Option Expr} (h : Terms fits E ρ guard.toList) :
    Shallow fits (evalGuard H E ρ guard) := by
  cases guard with
  | none => exact .pure trivial
  | some cond =>
    exact (evalTop_shallow (h cond mem_cons_self)).bind fun _ _ => .last (asBool_plain _)

/-- A list of one group over what it reads hands its loop nothing deeper. -/
theorem evalItems_runs {list : Expr} (h : Settled fits E ρ 0 1 list) :
    Runs fits (fun items => ∀ v ∈ items, Within fits 33 v) (evalItems H E ρ list) := by
  refine (evalExpr_runs le_rfl (by decide) h).bind fun cow hcow => (Runs.forced _).bind fun v hv =>
    .read (elements_plain _) fun items hitems => (Runs.free ?_).mono fun kept hkept u hu hfits => ?_
  · split <;> simp
  · have hkept : kept = items := by
      split at hkept <;> cases hkept
      rfl
    subst hkept hv
    have hlist := hcow hfits
    have hitem := part_levels (.inr hitems) hu
    omega

theorem evalProven_shallow {claim : Expr} (h : Settled fits E ρ 0 15 claim) :
    Shallow fits (evalProven H E ρ claim) :=
  (evalTop_shallow h).bind fun _ _ => .read (asClaim_plain _) fun _ _ =>
    .ite (.last (.error trivial)) (.pure trivial)

mutual

theorem evalCondition_shallow {rule : RuleExpr}
    (h : Terms fits E ρ (rule.leaves.flatMap leafTerms)) :
    Shallow fits (rule.mapLeaves (evalLeaf H E ρ)) := by
  cases rule with
  | require leaf =>
    rw [Rule.mapLeaves]
    refine Runs.bind (P := fun _ => True) ?_ fun _ _ => .pure trivial
    simp only [Rule.leaves, flatMap_singleton] at h
    cases leaf with
    | claim claim =>
      exact (evalTop_shallow (h claim mem_cons_self)).bind fun _ _ =>
        .read (asClaim_plain _) fun _ _ =>
        .pure trivial
    | stored cell =>
      exact (evalTop_shallow (h cell mem_cons_self)).bind fun _ _ =>
        .read (asKey_plain _) fun _ _ =>
        .pure trivial
    | presence target expect => exact (evalTarget_shallow h).bind fun _ _ => .pure trivial
  | countOf count rules =>
    rw [Rule.mapLeaves]
    exact (evalConditions_shallow h).bind fun _ _ => .pure trivial

theorem evalConditions_shallow {rules : List RuleExpr}
    (h : Terms fits E ρ ((Rule.leavesAll rules).flatMap leafTerms)) :
    Shallow fits (Rule.mapLeavesAll (evalLeaf H E ρ) rules) := by
  cases rules with
  | nil => exact .pure trivial
  | cons rule rules =>
    rw [Rule.leavesAll, flatMap_append] at h
    obtain ⟨hrule, hrules⟩ := forall_mem_append.mp h
    rw [Rule.mapLeavesAll]
    exact (evalCondition_shallow hrule).bind fun _ _ =>
      (evalConditions_shallow hrules).bind fun _ _ =>
      .pure trivial

end

theorem run_plain {Q : α → Prop} {x : Metered α} (h : Runs fits Q x) (w : Walk) :
    Plain fits (w.run x) := (h w.meter).1.bind fun _ _ => .ok _

theorem run_answers {Q : α → Prop} {x : Metered α} (h : Runs fits Q x) {w : Walk}
    {p : α × Walk} (hp : w.run x = .ok p) : Q p.1 := by
  obtain ⟨⟨a, m⟩, ha, hp⟩ := bind_ok.mp hp
  cases hp
  exact (h w.meter).2 a m ha

theorem evalEffect_plain {number : ℕ} {denomination : Option Expr} {w : Walk}
    (htarget : Terms fits E ρ target.parts) (hmode : Terms fits E ρ (modeTerms mode))
    (hdenomination : Terms fits E ρ denomination.toList) :
    Plain fits (evalEffect H E ρ number target mode denomination reach w) := by
  unfold evalEffect
  refine (run_plain (Q := fun _ => True) ?_ w).bind fun p _ => ?_
  · exact (evalTarget_shallow htarget).bind fun _ _ => (evalMode_shallow hmode).bind fun _ _ =>
      Runs.charge.bind fun _ _ => (evalHolds_shallow hdenomination).bind fun _ _ =>
      (evalReach_shallow htarget).bind fun _ _ => .pure trivial
  · dsimp only
    split <;> simp

theorem forItems_plain {pass : Value → Walk → Except EvalError (Walk × List (Option ℕ))}
    {lines : ℕ} {items : List Value} (hpass : ∀ v ∈ items, ∀ w, Plain fits (pass v w)) (w : Walk)
    (rows : List (List (Option ℕ))) : Plain fits (forItems pass lines items w rows) := by
  induction items generalizing w rows with
  | nil => exact .ok _
  | cons item items ih =>
    obtain ⟨hitem, hitems⟩ := forall_mem_cons.mp hpass
    rw [forItems]
    exact (run_plain Runs.charge w).bind fun _ _ => (hitem _).bind fun _ _ => ih hitems _ _

variable {n n' : ClauseCount}

theorem checkClausesBounds_mem {depth : ℕ} {clauses : List Clause}
    (h : checkClausesBounds depth n clauses = .ok n') :
    ∀ clause ∈ clauses, ∃ n₁ n₂, checkClauseBounds depth n₁ clause = .ok n₂ := by
  induction clauses generalizing n with
  | nil => simp
  | cons clause clauses ih =>
    rw [checkClausesBounds.eq_def] at h
    split at h
    · cases h
    · obtain ⟨n₁, hclause, hclauses⟩ := bind_ok.mp h
      exact forall_mem_cons.mpr ⟨⟨n, n₁, hclause⟩, ih hclauses⟩

structure Roomy (E : EvalInputs) (ρ : List Value) (clauses : List Clause) : Prop where
  reads : ∀ v ∈ E.args ++ E.record.config ++ ρ, Wire.valueLevels v ≤ 33
  groups : ∀ c ∈ clauses, clauseFits c = true

variable (H E)

mutual

theorem evalClause_plain (index depth : ℕ) (ρ : List Value) (clause : Clause) (w : Walk)
    {n n' : ClauseCount} (hdepth : depth ≤ MAX_CLAUSE_DEPTH)
    (h : checkClauseBounds depth n clause = .ok n') (hroom : fits → Roomy E ρ clause.effects) :
    Plain fits (evalClause H E index depth ρ clause w) := by
  have hfit (hfits : fits) :=
    Bool.and_eq_true_iff.mp ((hroom hfits).groups _ clause.mem_effects_self)
  have hterms : Terms fits E ρ (clauseTerms clause) := fun e he =>
    ⟨checkClauseBounds_ok h e he, fun hfits => ⟨_, all_eq_true.mp (hfit hfits).1 e he⟩,
      fun hfits => (hroom hfits).reads⟩
  obtain ⟨hguard, hterms⟩ := forall_mem_append.mp hterms
  rw [evalClause.eq_def, if_neg (Nat.not_lt.mpr hdepth)]
  refine (run_plain (evalGuard_shallow hguard) w).bind fun p _ => ?_
  obtain ⟨taken, w₁⟩ := p
  cases taken with
  | false => exact .ok _
  | true =>
    cases clause with
    | effect guard target mode denomination reach =>
      simp only [forall_mem_append] at hterms
      exact evalEffect_plain hterms.1.1 hterms.1.2 hterms.2
    | requires guard rule =>
      exact (run_plain (Runs.charge.bind fun _ _ => evalCondition_shallow hterms) _).bind
        fun _ _ => .ok _
    | proves guard claim =>
      have hclaim := hterms claim mem_cons_self
      refine (run_plain (Runs.charge.bind fun _ _ => evalProven_shallow hclaim) _).bind
        fun _ _ => ?_
      dsimp only
      split <;> simp
    | forEach guard list body =>
      rw [checkClauseBounds] at h
      have hlist := hterms list mem_cons_self
      have hitems : Runs fits _ (evalItems H E ρ list) := evalItems_runs
        ⟨hlist.gated, fun hfits => ⟨_, (hfit hfits).2⟩, hlist.reads⟩
      refine (run_plain hitems _).bind fun p hp => (forItems_plain (fun v hv w =>
        evalExpansion_plain index (depth + 1) (v :: ρ) body w (seq_ok.mp h).2 fun hfits => ?_)
        _ _).bind fun _ _ => .ok _
      refine ⟨fun u hu => ?_, fun c hc => (hroom hfits).groups c (mem_cons_of_mem _ hc)⟩
      rcases mem_append.mp hu with hu | hu
      · exact (hroom hfits).reads u (mem_append_left _ hu)
      · rcases mem_cons.mp hu with rfl | hu
        · exact run_answers hitems hp u hv hfits
        · exact (hroom hfits).reads u (mem_append_right _ hu)

theorem evalExpansion_plain (index depth : ℕ) (ρ : List Value) (body : List Clause) (w : Walk)
    {n n' : ClauseCount} (h : checkClausesBounds depth n body = .ok n')
    (hroom : fits → Roomy E ρ (Clause.effectsAll body)) :
    Plain fits (evalExpansion H E index depth ρ body w) := by
  cases body with
  | nil => exact .ok _
  | cons clause clauses =>
    rw [checkClausesBounds.eq_def] at h
    split at h
    · cases h
    rename_i hdepth
    obtain ⟨n₁, hclause, hclauses⟩ := bind_ok.mp h
    rw [evalExpansion]
    refine (evalClause_plain index depth ρ clause w (Nat.not_lt.mp hdepth) hclause fun hfits =>
      ⟨(hroom hfits).reads, fun c hc => (hroom hfits).groups c (mem_append_left _ hc)⟩).bind
      fun _ _ => (evalExpansion_plain index depth ρ clauses _ hclauses fun hfits => ?_).bind
      fun _ _ => .ok _
    exact ⟨(hroom hfits).reads, fun c hc => (hroom hfits).groups c (mem_append_right _ hc)⟩

end

theorem evaluateDeclaration_plain {signature : MethodSignature}
    (hgate : checkSignatureBounds signature = .ok ()) (envelope : ℕ)
    (hroom : fits → Roomy E [] signature.flat) :
    Plain fits (evaluateDeclaration H E signature.effects envelope) := by
  obtain ⟨-, n, hn⟩ := checkSignatureBounds_ok hgate
  refine Refuses.bind (.foldlM_each fun a ha w => ?_) fun w _ => .ok _
  have hclause := fst_mem_of_mem_zipIdx ha
  obtain ⟨n₁, n₂, hbounds⟩ := checkClausesBounds_mem hn _ hclause
  dsimp only [evalTop]
  split
  · refine (evalClause_plain H E _ 0 [] _ w (Nat.zero_le _) hbounds fun hfits =>
      ⟨(hroom hfits).reads, fun c hc => (hroom hfits).groups c ?_⟩).bind fun _ _ => .ok _
    exact Clause.mem_effectsAll.mpr ⟨_, hclause, hc⟩
  · exact .error trivial

/-- No signature the gate passes is refused for depth, whatever it is called with and whatever
its envelope has already spent. -/
theorem gated_declaration_is_never_too_deep {signature : MethodSignature}
    (hgate : checkSignatureBounds signature = .ok ()) (envelope : ℕ) :
    evaluateDeclaration H E signature.effects envelope ≠ .error .expressionTooDeep ∧
      evaluateDeclaration H E signature.effects envelope ≠ .error .clausesTooDeep := by
  have hplain : Plain False _ := evaluateDeclaration_plain H E hgate envelope False.elim
  exact ⟨fun h => hplain _ h, fun h => hplain _ h⟩

end

def negated : ℕ → Expr
  | 0 => .literal (.bool true)
  | n + 1 => .not (negated n)

def looped : ℕ → List Clause
  | 0 => [.requires (some (negated MAX_EXPR_DEPTH)) .always]
  | n + 1 => [.forEach none (.list (.single (.literal (.bool true)))) (looped n)]

def deepestMethod : MethodSignature :=
  { MethodSignature.empty with effects := looped MAX_CLAUSE_DEPTH }

/-- At both caps at once. -/
theorem deepest_method_is_never_too_deep : checkSignatureBounds deepestMethod = .ok () ∧
      evaluateDeclaration codedHasher (boxInputs []) deepestMethod.effects 0 ≠
        .error .expressionTooDeep ∧
      evaluateDeclaration codedHasher (boxInputs []) deepestMethod.effects 0 ≠
        .error .clausesTooDeep := by
  have hgate : checkSignatureBounds deepestMethod = .ok () := by rfl
  exact ⟨hgate, gated_declaration_is_never_too_deep codedHasher (boxInputs []) hgate 0⟩

end HyperscaleVm.Effects.Publish

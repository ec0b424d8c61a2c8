import HyperscaleVm.Effects.Declaration

/-!
# What an expression means (`effects/src/dsl.rs`)

The value of a term in a call, with no meter, no depth and no borrow: partial, because a
term may read past its inputs or apply an operator to the wrong kind.
-/

namespace HyperscaleVm.Effects

def lookupPair (key : Value) : List Value → Option (Option Value)
  | [] => some none
  | pair :: pairs => do
    let pair ← (asPair pair).toOption
    if pair.1 = key then some (some pair.2) else lookupPair key pairs

section

variable (H : Hasher) (E : EvalInputs) (ρ : List Value)

mutual

def Expr.meaning : Expr → Option Value
  | .literal value => some value
  | .arg index => E.args[index]?
  | .config index => E.record.config[index]?
  | .binding index => ρ[index]?
  | .ite cond then_ otherwise => do
    let cond ← cond.meaning
    let taken ← (asBool cond).toOption
    if taken then then_.meaning else otherwise.meaning
  | .selfAddr => some (.address E.selfAddr)
  | .selfRecord => (H.leafBytes E.record).map .bytes
  | .field tuple index => do
    let tuple ← tuple.meaning
    (do fieldAt (← fields tuple) index : Except EvalError Value).toOption
  | .resourceOf bucket => do
    let bucket ← bucket.meaning
    let parts ← (bucketParts bucket).toOption
    some (.address parts.1.1)
  | .idsOf bucket => do
    let bucket ← bucket.meaning
    (do edgeIds (← bucketParts bucket).2 : Except EvalError Value).toOption
  | .len list => do
    let list ← list.meaning
    let items ← (elements list).toOption
    some (.u64 (min items.length (2 ^ 64 - 1)))
  | .only list => do
    let list ← list.meaning
    (do sole (← elements list) : Except EvalError Value).toOption
  | .lookup map key => do
    let map ← map.meaning
    let pairs ← (elements map).toOption
    let key ← key.meaning
    let hit ← lookupPair key pairs
    hit
  | .selfResource kind material grants => do
    let parts ← material.meaning
    (selfResource H E kind parts grants).toOption
  | .childKey owner slot material => do
    let owner ← owner.meaning
    let owner ← (asAddress owner).toOption
    let slot ← slot.meaning true
    let parts ← material.meaning
    some (.key (childKey H owner slot parts))
  | .orderKey owner slot material => do
    let owner ← owner.meaning
    let owner ← (asAddress owner).toOption
    let parts ← material.meaning
    some (.u128 (H.order owner slot parts % 2 ^ 128))
  | .freshId slot => some (.u64 (freshId H E.identity E.nodeIndex slot))
  | .freshKey slot => some (.key ⟨E.selfAddr, freshLocal H E.identity E.nodeIndex slot⟩)
  | .pack hi lo => do
    let hi ← hi.meaning
    let hi ← (asU64 hi).toOption
    let lo ← lo.meaning
    let lo ← (asU64 lo).toOption
    some (.u128 (hi * 2 ^ 64 + lo))
  | .list items => do
    let items ← items.meaning
    some (.list (.ofList items))
  | .tuple items => do
    let items ← items.meaning
    some (.tuple (.ofList items))
  | .nfBucket resource ids => do
    let resource ← resource.meaning
    let resource ← (do asResource (← asAddress resource) : Except EvalError ResourceAddr).toOption
    let ids ← ids.meaning
    let ids ← (do idSet (← elements ids) : Except EvalError (List ℕ)).toOption
    some (.bucket resource (.nonFungible ids))
  | .not inner => do
    let inner ← inner.meaning
    let flag ← (asBool inner).toOption
    some (.bool !flag)
  | .and left right => do
    let left ← left.meaning
    let flag ← (asBool left).toOption
    if flag then do
      let right ← right.meaning
      let flag ← (asBool right).toOption
      some (.bool flag)
    else some (.bool false)
  | .or left right => do
    let left ← left.meaning
    let flag ← (asBool left).toOption
    if flag then some (.bool true)
    else do
      let right ← right.meaning
      let flag ← (asBool right).toOption
      some (.bool flag)
  | .add left right => do
    let left ← left.meaning
    let right ← right.meaning
    (addValues left right).toOption
  | .eq left right => do
    let left ← left.meaning
    let right ← right.meaning
    (equals left right).toOption
  | .lt left right => do
    let left ← left.meaning
    let right ← right.meaning
    (lessThan left right).toOption
  | .contains map key => do
    let map ← map.meaning
    let pairs ← (elements map).toOption
    let key ← key.meaning
    let hit ← lookupPair key pairs
    some (.bool hit.isSome)

def Exprs.meaning : Exprs → Option (List Value)
  | .nil => some []
  | .cons e es => do
    let v ← e.meaning
    let vs ← es.meaning
    some (v :: vs)

def SlotRef.meaning (point : Bool) : SlotRef → Option SlotId
  | .fixed slot => some slot
  | .reached e => do
    let named ← e.meaning
    let named ← (asU64 named).toOption
    (reachableSlot point named).toOption

end

def collectionMeaning (owner : Address) (slot : SlotRef) (material : Exprs) : Option ℕ := do
  let slot ← slot.meaning H E ρ false
  let parts ← material.meaning H E ρ
  some (H.collection owner slot parts)

def TargetExpr.meaning : TargetExpr → Option EffectTarget
  | .point key => do
    let key ← key.meaning H E ρ
    let key ← (asKey key).toOption
    some (.point key)
  | .entry owner collection material order => do
    let owner ← owner.meaning H E ρ
    let owner ← (asAddress owner).toOption
    let collection ← collectionMeaning H E ρ owner collection material
    let order ← order.meaning H E ρ
    let order ← (asU128 order).toOption
    some (.entry owner collection order)
  | .range owner collection material lo hi cap => do
    let owner ← owner.meaning H E ρ
    let owner ← (asAddress owner).toOption
    let collection ← collectionMeaning H E ρ owner collection material
    let lo ← lo.meaning H E ρ
    let lo ← (asU128 lo).toOption
    let hi ← hi.meaning H E ρ
    let hi ← (asU128 hi).toOption
    let () ← (if lo > hi then .error .invalidRange else .ok () : Except EvalError Unit).toOption
    let cap ← cap.meaning H E ρ
    let cap ← (asCap cap).toOption
    some (.range owner collection lo hi cap)

def ModeExpr.meaning : ModeExpr → Option Mode
  | .read => some .read
  | .delta moves => some (.delta moves)
  | .reserve amount => do
    let amount ← amount.meaning H E ρ
    let amount ← (asU128 amount).toOption
    some (.reserve amount)
  | .write moves => some (.write moves)

def Expr.resourceMeaning (expr : Expr) : Option ResourceAddr := do
  let value ← expr.meaning H E ρ
  (asDenomination value).toOption

def RuleLeaf.meaning : RuleLeaf → Option JudgedLeaf
  | .presence target expect => do
    let target ← target.meaning H E ρ
    some (.presence target expect)
  | .claim expr => do
    let value ← expr.meaning H E ρ
    let claim ← (asClaim value).toOption
    some (.claim claim)
  | .stored cell => do
    let cell ← cell.meaning H E ρ
    let cell ← (asKey cell).toOption
    some (.stored cell)

def guardMeaning : Option Expr → Option Bool
  | none => some true
  | some cond => do
    let cond ← cond.meaning H E ρ
    (asBool cond).toOption

def loopItems (list : Expr) : Option (List Value) := do
  let list ← list.meaning H E ρ
  (elements list).toOption

end

/-- Whatever `x` answers, on whatever meter, is what `o` says, read through `π`. -/
def Yields {α β : Type} (x : Metered α) (π : α → β) (o : Option β) : Prop :=
  ∀ m a m', x m = .ok (a, m') → o = some (π a)

namespace Yields

variable {α β γ δ : Type} {π : α → β}

theorem pure {a : α} : Yields (Pure.pure a) π (some (π a)) := by
  intro m a' m' h
  cases h
  rfl

variable {x : Metered α} {o : Option β} {f : α → Metered γ} {σ : γ → δ}

theorem runs_bind {m m' : Meter} {c : γ} (h : (x >>= f) m = .ok (c, m')) :
    ∃ a m₁, x m = .ok (a, m₁) ∧ f a m₁ = .ok (c, m') := by
  obtain ⟨p, hx, hf⟩ := Library.bind_ok.mp (show (x m >>= fun p => f p.1 p.2) = .ok (c, m') from h)
  exact ⟨p.1, p.2, hx, hf⟩

theorem bind {g : β → Option δ} (hx : Yields x π o) (hf : ∀ a, Yields (f a) σ (g (π a))) :
    Yields (x >>= f) σ (o >>= g) := by
  intro m c m' h
  obtain ⟨a, m₁, hxm, hfm⟩ := runs_bind h
  rw [hx m a m₁ hxm]
  exact hf a m₁ c m' hfm

theorem drop {o : Option δ} (hf : ∀ a, Yields (f a) σ o) : Yields (x >>= f) σ o := by
  intro m c m' h
  obtain ⟨a, m₁, -, hfm⟩ := runs_bind h
  exact hf a m₁ c m' hfm

/-- The steps after `x` hand its answer on. -/
theorem keep {π : α → δ} {o : Option δ}
    (hx : Yields x π o) (hf : ∀ a, Yields (f a) σ (some (π a))) : Yields (x >>= f) σ o := by
  have h := bind hx hf
  rwa [show o >>= some = o from Option.bind_fun_some o] at h

theorem map {o : Option α} {σ : α → δ} (hx : Yields x id o) :
    Yields x σ (o >>= fun a => some (σ a)) := by
  intro m a m' h
  rw [hx m a m' h]
  rfl

theorem known {b : α} {o : Option δ}
    (hx : Yields x id (some b)) (hf : Yields (f b) σ o) : Yields (x >>= f) σ o := by
  intro m c m' h
  obtain ⟨a, m₁, hxm, hfm⟩ := runs_bind h
  obtain rfl : b = a := Option.some.inj (hx m a m₁ hxm)
  exact hf m₁ c m' hfm

theorem free {x : Except EvalError α} : Yields (Effects.free x) id x.toOption := by
  intro m a m' h
  cases x with
  | error e => cases h
  | ok b =>
    cases h
    rfl

theorem built {v : Value} : Yields (Effects.built v) Cow.value (some v) :=
  drop fun _ => pure

theorem indexed {values : List α} {index : ℕ} {miss : EvalError} :
    Yields (Effects.free (Effects.indexed values index miss)) id values[index]? := by
  intro m a m' h
  unfold Effects.indexed at h
  split at h
  · rename_i value hv
    cases h
    exact hv
  · cases h

theorem fail (hx : ∀ m p, x m ≠ .ok p) : Yields x π o := fun m a m' h => absurd h (hx m (a, m'))

theorem ite {c : Prop} [Decidable c] {y : Metered α} {p : Option β}
    (hx : Yields x π o) (hy : Yields y π p) :
    Yields (if c then x else y) π (if c then o else p) := by
  split
  · exact hx
  · exact hy

theorem forced {cow : Cow} : Yields (Effects.forced cow) id (some cow.value) := by
  unfold Effects.forced
  split
  · exact pure
  · exact drop fun _ => pure

theorem find (key : Value) (pairs : List Value) :
    Yields (Effects.find key pairs) id (lookupPair key pairs) := by
  induction pairs with
  | nil => exact pure
  | cons pair pairs ih =>
    rw [Effects.find, lookupPair]
    exact drop fun _ => bind free fun pair => ite pure ih

end Yields

section

variable (H : Hasher) (E : EvalInputs) (ρ : List Value)

mutual

theorem evalExpr_meaning (depth : ℕ) (expr : Expr) :
    Yields (evalExpr H E ρ depth expr) Cow.value (expr.meaning H E ρ) := by
  rw [evalExpr.eq_def]
  refine .drop fun _ => ?_
  cases expr with
  | literal value => exact .pure
  | arg | config | binding => exact .keep .indexed fun _ => .pure
  | ite cond then_ otherwise =>
    exact .bind (evalExpr_meaning _ cond) fun _ => .bind .free fun _ =>
      .ite (evalExpr_meaning _ then_) (evalExpr_meaning _ otherwise)
  | selfAddr | freshId | freshKey => exact .built
  | selfRecord =>
    rw [Expr.meaning]
    dsimp only
    split
    · rename_i bytes h
      rw [h]
      exact .built
    · exact .fail fun m p h => by cases h
  | field tuple index =>
    exact .bind (evalExpr_meaning _ tuple) fun _ => .keep .free fun _ => .drop fun _ => .built
  | resourceOf bucket =>
    exact .bind (evalExpr_meaning _ bucket) fun _ => .bind .free fun _ => .built
  | idsOf bucket => exact .bind (evalExpr_meaning _ bucket) fun _ => .keep .free fun _ => .built
  | len list => exact .bind (evalExpr_meaning _ list) fun _ => .bind .free fun _ => .built
  | only list =>
    exact .bind (evalExpr_meaning _ list) fun _ => .keep .free fun _ => .drop fun _ => .built
  | lookup map key =>
    refine .bind (evalExpr_meaning _ map) fun _ => .bind .free fun _ =>
      .bind (evalExpr_meaning _ key) fun _ => .bind (.find _ _) fun hit => ?_
    cases hit with
    | none => exact .fail fun m p h => by cases h
    | some hit => exact .drop fun _ => .built
  | selfResource kind material grants =>
    exact .bind (evalMaterial_meaning _ material) fun _ => .keep .free fun _ => .built
  | childKey owner slot material =>
    exact .bind (evalExpr_meaning _ owner) fun _ => .bind .free fun _ =>
      .bind (evalSlot_meaning true _ slot) fun _ => .bind (evalMaterial_meaning _ material) fun _ =>
      .built
  | orderKey owner slot material =>
    exact .bind (evalExpr_meaning _ owner) fun _ => .bind .free fun _ =>
      .bind (evalMaterial_meaning _ material) fun _ => .built
  | pack hi lo =>
    exact .bind (evalExpr_meaning _ hi) fun _ => .bind .free fun _ =>
      .bind (evalExpr_meaning _ lo) fun _ => .bind .free fun _ => .built
  | list items | tuple items => exact .bind (evalAll_meaning _ items) fun _ => .built
  | nfBucket resource ids =>
    exact .bind (evalExpr_meaning _ resource) fun _ => .bind .free fun _ =>
      .bind (evalExpr_meaning _ ids) fun _ => .bind .free fun _ => .built
  | not inner => exact .bind (evalExpr_meaning _ inner) fun _ => .bind .free fun _ => .built
  | and left right =>
    exact .bind (evalExpr_meaning _ left) fun _ => .bind .free fun _ =>
      .ite (.bind (evalExpr_meaning _ right) fun _ => .bind .free fun _ => .built) .built
  | or left right =>
    exact .bind (evalExpr_meaning _ left) fun _ => .bind .free fun _ =>
      .ite .built (.bind (evalExpr_meaning _ right) fun _ => .bind .free fun _ => .built)
  | add left right =>
    exact .bind (evalExpr_meaning _ left) fun _ => .bind (evalExpr_meaning _ right) fun _ =>
      .keep .free fun _ => .built
  | eq left right =>
    exact .bind (evalExpr_meaning _ left) fun _ => .bind (evalExpr_meaning _ right) fun _ =>
      .drop fun _ => .keep .free fun _ => .built
  | lt left right =>
    exact .bind (evalExpr_meaning _ left) fun _ => .bind (evalExpr_meaning _ right) fun _ =>
      .keep .free fun _ => .built
  | contains map key =>
    exact .bind (evalExpr_meaning _ map) fun _ => .bind .free fun _ =>
      .bind (evalExpr_meaning _ key) fun _ => .bind (.find _ _) fun _ => .built

theorem evalMaterial_meaning (depth : ℕ) (material : Exprs) :
    Yields (evalMaterial H E ρ depth material) id (material.meaning H E ρ) := by
  cases material with
  | nil => exact .pure
  | cons e es =>
    rw [evalMaterial, Exprs.meaning]
    exact .bind (evalExpr_meaning depth e) fun _ => .drop fun _ => .drop fun _ =>
      .bind (evalMaterial_meaning depth es) fun _ => .pure

theorem evalAll_meaning (depth : ℕ) (items : Exprs) :
    Yields (evalAll H E ρ depth items) id (items.meaning H E ρ) := by
  cases items with
  | nil => exact .pure
  | cons e es =>
    rw [evalAll, Exprs.meaning]
    exact .bind (evalExpr_meaning depth e) fun _ => .known .forced
      (.bind (evalAll_meaning depth es) fun _ => .pure)

theorem evalSlot_meaning (point : Bool) (depth : ℕ) (slot : SlotRef) :
    Yields (evalSlot H E ρ point depth slot) id (slot.meaning H E ρ point) := by
  cases slot with
  | fixed slot => exact .pure
  | reached e =>
    rw [evalSlot, SlotRef.meaning]
    exact .bind (evalExpr_meaning depth e) fun _ => .bind .free fun _ => .free

end

theorem evalCollection_meaning (owner : Address) (slot : SlotRef) (material : Exprs) :
    Yields (evalCollection H E ρ owner slot material) id
      (collectionMeaning H E ρ owner slot material) :=
  .bind (evalSlot_meaning H E ρ false 0 slot) fun _ =>
    .bind (evalMaterial_meaning H E ρ 0 material) fun _ => .drop fun _ => .pure

theorem evalTarget_meaning (target : TargetExpr) :
    Yields (evalTarget H E ρ target) id (target.meaning H E ρ) := by
  cases target with
  | point key =>
    exact .bind (evalExpr_meaning H E ρ 0 key) fun _ => .bind .free fun _ => .pure
  | entry owner collection material order =>
    exact .bind (evalExpr_meaning H E ρ 0 owner) fun _ => .bind .free fun owner =>
      .bind (evalCollection_meaning H E ρ owner collection material) fun _ =>
      .bind (evalExpr_meaning H E ρ 0 order) fun _ => .bind .free fun _ => .pure
  | range owner collection material lo hi cap =>
    exact .bind (evalExpr_meaning H E ρ 0 owner) fun _ => .bind .free fun owner =>
      .bind (evalCollection_meaning H E ρ owner collection material) fun _ =>
      .bind (evalExpr_meaning H E ρ 0 lo) fun _ => .bind .free fun _ =>
      .bind (evalExpr_meaning H E ρ 0 hi) fun _ => .bind .free fun _ => .bind .free fun _ =>
      .bind (evalExpr_meaning H E ρ 0 cap) fun _ => .bind .free fun _ => .pure

theorem evalMode_meaning (mode : ModeExpr) :
    Yields (evalMode H E ρ mode) id (mode.meaning H E ρ) := by
  cases mode with
  | read | delta | write => exact .pure
  | reserve amount =>
    exact .bind (evalExpr_meaning H E ρ 0 amount) fun _ => .bind .free fun _ => .pure

theorem evalDenomination_meaning (expr : Expr) :
    Yields (evalDenomination H E ρ expr) id (expr.resourceMeaning H E ρ) :=
  .bind (evalExpr_meaning H E ρ 0 expr) fun _ => .free

theorem evalLeaf_meaning (leaf : RuleLeaf) :
    Yields (evalLeaf H E ρ leaf) id (leaf.meaning H E ρ) := by
  cases leaf with
  | presence target expect => exact .bind (evalTarget_meaning H E ρ target) fun _ => .pure
  | claim expr =>
    exact .bind (evalExpr_meaning H E ρ 0 expr) fun _ => .bind .free fun _ => .pure
  | stored cell =>
    exact .bind (evalExpr_meaning H E ρ 0 cell) fun _ => .bind .free fun _ => .pure

theorem evalGuard_meaning (guard : Option Expr) :
    Yields (evalGuard H E ρ guard) id (guardMeaning H E ρ guard) := by
  cases guard with
  | none => exact .pure
  | some cond => exact .bind (evalExpr_meaning H E ρ 0 cond) fun _ => .free

end

end HyperscaleVm.Effects

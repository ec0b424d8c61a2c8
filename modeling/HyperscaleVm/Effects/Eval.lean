import HyperscaleVm.Effects.Derive
import HyperscaleVm.Effects.Wire.Values

/-!
# Evaluating a declaration (`effects/src/dsl.rs`)

The metered evaluator: every term walked is charged against the signature's and
the envelope's ceilings, a borrowed value is charged where it is copied, and a
clause files what it declares as it is reached.
-/

namespace HyperscaleVm.Effects
open Std (ExtTreeMap)

def MAX_FOREACH_ELEMENTS : ℕ := MAX_VALUE_ITEMS
def MAX_EXPR_DEPTH : ℕ := 32
def MAX_EVALUATION_WORK : ℕ := 65536
def BYTES_PER_WORK_UNIT : ℕ := 8
def WORK_PER_DERIVATION : ℕ := 8
def MAX_ENVELOPE_EVALUATION_WORK : ℕ := 2097152
def MAX_CLAUSE_DEPTH : ℕ := 4
def MAX_EFFECTS_PER_SIGNATURE : ℕ := 4096
def MAX_PROVEN_PER_SIGNATURE : ℕ := 8

inductive EvalError where
  | argOutOfRange (index : ℕ)
  | unkeyedReach
  | unreachableSlot (slot : ℕ)
  | configOutOfRange (index : ℕ)
  | bindingOutOfRange (index : ℕ)
  | typeMismatch (expected found : String)
  | notAResource (address : Address)
  | grantsUnresolvable (error : GrantsResolveError)
  | recordMalformed
  | fieldOutOfRange (index arity : ℕ)
  | capTooWide (cap : ℕ)
  | addOverflow
  | notSingleton (len : ℕ)
  | lookupMiss
  | lookupNotPairs
  | forEachTooLong (len : ℕ)
  | provesPastCap
  | expressionTooDeep
  | clausesTooDeep
  | tooManyEffects
  | tooMuchWork
  | envelopeTooMuchWork
  | invalidRange
  | tooManyIds (len : ℕ)
  | duplicateId (id : ℕ)
  | conflict
  | encodingPanic
  deriving DecidableEq

def mismatch {α : Type} (expected : String) (found : Value) : Except EvalError α :=
  .error (.typeMismatch expected found.kind.text)

def asU64 : Value → Except EvalError ℕ
  | .u64 n => .ok n
  | other => mismatch "u64" other

def asU128 : Value → Except EvalError ℕ
  | .u64 n => .ok n
  | .u128 n => .ok n
  | other => mismatch "u128" other

def asCap (value : Value) : Except EvalError ℕ := do
  let cap ← asU128 value
  if cap < 2 ^ 32 then return cap else .error (.capTooWide cap)

def asAddress : Value → Except EvalError Address
  | .address a => .ok a
  | other => mismatch "address" other

def asKey : Value → Except EvalError SubstateKey
  | .key k => .ok k
  | other => mismatch "key" other

def asBool : Value → Except EvalError Bool
  | .bool b => .ok b
  | other => mismatch "bool" other

def asResource (a : Address) : Except EvalError ResourceAddr :=
  match a.toResource? with
  | some r => .ok r
  | none => .error (.notAResource a)

def asDenomination : Value → Except EvalError ResourceAddr
  | .address a => asResource a
  | other => mismatch "resource" other

def asClaim (value : Value) : Except EvalError Claim :=
  match Claim.of value with
  | some claim => .ok claim
  | none => mismatch "claim" value

def fields : Value → Except EvalError (List Value)
  | .tuple vs => .ok vs.toList
  | other => mismatch "tuple" other

def elements : Value → Except EvalError (List Value)
  | .list vs => .ok vs.toList
  | other => mismatch "list" other

def bucketParts : Value → Except EvalError (ResourceAddr × EdgeContent)
  | .bucket resource content => .ok (resource, content)
  | other => mismatch "bucket" other

def edgeIds : EdgeContent → Except EvalError Value
  | .nonFungible ids => .ok (.list (.ofList (ids.map .u64)))
  | .fungible => .error (.typeMismatch "non-fungible bucket" "bucket")

def idSet (values : List Value) : Except EvalError (List ℕ) := do
  let ids ← values.foldlM (fun ids value => do
    let id ← asU64 value
    if id ∈ ids then .error (.duplicateId id) else return ids ++ [id]) []
  if ids.length ≤ MAX_IDS_PER_EDGE then return ids else .error (.tooManyIds ids.length)

def sole : List Value → Except EvalError Value
  | [only] => .ok only
  | other => .error (.notSingleton other.length)

def fieldAt (values : List Value) (index : ℕ) : Except EvalError Value :=
  match values[index]? with
  | some value => .ok value
  | none => .error (.fieldOutOfRange index values.length)

def addValues : Value → Value → Except EvalError Value
  | .u64 a, .u64 b => if a + b < 2 ^ 64 then .ok (.u64 (a + b)) else .error .addOverflow
  | .u128 a, .u128 b => if a + b < 2 ^ 128 then .ok (.u128 (a + b)) else .error .addOverflow
  | .u64 _, other => mismatch "u64" other
  | .u128 _, other => mismatch "u128" other
  | other, _ => mismatch "u64 or u128" other

def lessThan : Value → Value → Except EvalError Value
  | .u64 a, .u64 b => .ok (.bool (a < b))
  | .u128 a, .u128 b => .ok (.bool (a < b))
  | .u64 _, other => mismatch "u64" other
  | .u128 _, other => mismatch "u128" other
  | other, _ => mismatch "u64 or u128" other

mutual

def Value.holdsBucket : Value → Bool
  | .bucket _ _ => true
  | .tuple vs | .list vs => vs.holdsBucket
  | _ => false

def Values.holdsBucket : Values → Bool
  | .nil => false
  | .cons v vs => v.holdsBucket || vs.holdsBucket

end

def equals (left right : Value) : Except EvalError Value :=
  if left.holdsBucket || right.holdsBucket then
    .error (.typeMismatch "a comparable value" "bucket")
  else if left.kind ≠ right.kind then mismatch left.kind.text right
  else .ok (.bool (left = right))

structure Meter where
  work : ℕ
  spent : ℕ
  envelope : ℕ

abbrev Metered := StateT Meter (Except EvalError)

def charge : Metered Unit := fun m =>
  if m.work + 1 > MAX_EFFECTS_PER_SIGNATURE then .error .tooManyEffects
  else .ok ((), { m with work := m.work + 1 })

def spend (units : ℕ) : Metered Unit := fun m =>
  if m.spent + units > MAX_EVALUATION_WORK then .error .tooMuchWork
  else if m.envelope + units > MAX_ENVELOPE_EVALUATION_WORK then .error .envelopeTooMuchWork
  else .ok ((), { m with spent := m.spent + units, envelope := m.envelope + units })

def free {α : Type} (x : Except EvalError α) : Metered α := fun m => x.map fun a => (a, m)

mutual

def Value.walked : Value → ℕ
  | .bytes bs => 1 + bs.length / BYTES_PER_WORK_UNIT
  | .tuple vs | .list vs => 1 + vs.walked
  | _ => 1

def Values.walked : Values → ℕ
  | .nil => 0
  | .cons v vs => v.walked + vs.walked

end

structure Cow where
  value : Value
  owned : Bool

def forced (cow : Cow) : Metered Value :=
  if cow.owned then pure cow.value
  else do
    spend cow.value.walked
    return cow.value

def built (value : Value) : Metered Cow := do
  spend value.walked
  return ⟨value, true⟩

def asPair : Value → Except EvalError (Value × Value)
  | .tuple (.cons k (.cons v .nil)) => .ok (k, v)
  | _ => .error .lookupNotPairs

def find (key : Value) : List Value → Metered (Option Value)
  | [] => return none
  | pair :: pairs => do
    spend key.walked
    let pair ← free (asPair pair)
    if pair.1 = key then return some pair.2 else find key pairs

abbrev SlotWidths := ExtTreeMap SlotId ℕ

structure EvalInputs where
  selfAddr : Address
  args : List Value
  record : InstanceMeta
  nodeIndex : ℕ
  identity : ℕ
  widths : SlotWidths

def derivations : Expr → ℕ
  | .selfResource _ _ _ => 2
  | .childKey _ _ _ | .orderKey _ _ _ | .freshId _ | .freshKey _ => 1
  | _ => 0

def reachableSlot (point : Bool) (named : ℕ) : Except EvalError SlotId :=
  if named < 2 ^ 16 then
    let holdsValue :=
      if PACKAGE_SLOT_BASE ≤ named then decide (named < KERNEL_SLOT_BASE)
      else if point then named == VAULT
      else named == NF_VAULT
    if holdsValue then .ok named else .error (.unreachableSlot named)
  else .error (.unreachableSlot named)

def indexed {α : Type} (values : List α) (index : ℕ) (miss : EvalError) : Except EvalError α :=
  match values[index]? with
  | some value => .ok value
  | none => .error miss

/-- What `canonical_bytes` expects: the value's encoding within the default cap. -/
def canonicalBytes (value : Value) : Metered Unit :=
  free (if Wire.valueLevels value ≤ Hbor.DEFAULT_MAX_DEPTH then .ok () else .error .encodingPanic)

def selfResource (H : Hasher) (E : EvalInputs) (kind : ResourceKind) (material : List Value)
    (grants : GrantsExpr) : Except EvalError Value :=
  match grants.resolve H E.selfAddr E.record.config with
  | .ok rules => .ok (.address (grantingResourceAddress H E.selfAddr kind rules material).1)
  | .error e => .error (.grantsUnresolvable e)

def enter (depth : ℕ) (expr : Expr) : Metered Unit := do
  if depth > MAX_EXPR_DEPTH then free (.error .expressionTooDeep)
  spend (1 + derivations expr * WORK_PER_DERIVATION)

section

variable (H : Hasher) (E : EvalInputs) (bindings : List Value)

mutual

/-- `eval_expr`. The innermost loop's element is the first binding. -/
def evalExpr (depth : ℕ) (expr : Expr) : Metered Cow := do
  enter depth expr
  match expr with
  | .literal value => return ⟨value, false⟩
  | .arg index => return ⟨← free (indexed E.args index (.argOutOfRange index)), false⟩
  | .config index =>
    return ⟨← free (indexed E.record.config index (.configOutOfRange index)), false⟩
  | .binding index => return ⟨← free (indexed bindings index (.bindingOutOfRange index)), false⟩
  | .ite cond then_ otherwise =>
    let cond ← evalExpr (depth + 1) cond
    if ← free (asBool cond.value) then evalExpr (depth + 1) then_
    else evalExpr (depth + 1) otherwise
  | .selfAddr => built (.address E.selfAddr)
  | .selfRecord =>
    match H.leafBytes E.record with
    | some bytes => built (.bytes bytes)
    | none => free (.error .recordMalformed)
  | .field tuple index =>
    let tuple ← evalExpr (depth + 1) tuple
    let field ← free (do fieldAt (← fields tuple.value) index)
    spend field.walked
    built field
  | .resourceOf bucket =>
    let bucket ← evalExpr (depth + 1) bucket
    let parts ← free (bucketParts bucket.value)
    built (.address parts.1.1)
  | .idsOf bucket =>
    let bucket ← evalExpr (depth + 1) bucket
    let ids ← free (do edgeIds (← bucketParts bucket.value).2)
    built ids
  | .len list =>
    let list ← evalExpr (depth + 1) list
    let items ← free (elements list.value)
    built (.u64 (min items.length (2 ^ 64 - 1)))
  | .only list =>
    let list ← evalExpr (depth + 1) list
    let only ← free (do sole (← elements list.value))
    spend only.walked
    built only
  | .lookup map key =>
    let map ← evalExpr (depth + 1) map
    let pairs ← free (elements map.value)
    let key ← evalExpr (depth + 1) key
    match ← find key.value pairs with
    | some hit =>
      spend hit.walked
      built hit
    | none => free (.error .lookupMiss)
  | .selfResource kind material grants =>
    let parts ← evalMaterial (depth + 1) material
    let resource ← free (selfResource H E kind parts grants)
    built resource
  | .childKey owner slot material =>
    let owner ← evalExpr (depth + 1) owner
    let owner ← free (asAddress owner.value)
    let slot ← evalSlot true (depth + 1) slot
    let parts ← evalMaterial (depth + 1) material
    built (.key (childKey H owner slot parts))
  | .orderKey owner slot material =>
    let owner ← evalExpr (depth + 1) owner
    let owner ← free (asAddress owner.value)
    let parts ← evalMaterial (depth + 1) material
    built (.u128 (H.order owner slot parts % 2 ^ 128))
  | .freshId slot => built (.u64 (freshId H E.identity E.nodeIndex slot))
  | .freshKey slot => built (.key ⟨E.selfAddr, freshLocal H E.identity E.nodeIndex slot⟩)
  | .pack hi lo =>
    let hi ← evalExpr (depth + 1) hi
    let hi ← free (asU64 hi.value)
    let lo ← evalExpr (depth + 1) lo
    let lo ← free (asU64 lo.value)
    built (.u128 (hi * 2 ^ 64 + lo))
  | .list items =>
    let items ← evalAll (depth + 1) items
    built (.list (.ofList items))
  | .tuple items =>
    let items ← evalAll (depth + 1) items
    built (.tuple (.ofList items))
  | .nfBucket resource ids =>
    let resource ← evalExpr (depth + 1) resource
    let resource ← free (do asResource (← asAddress resource.value))
    let ids ← evalExpr (depth + 1) ids
    let ids ← free (do idSet (← elements ids.value))
    built (.bucket resource (.nonFungible ids))
  | .not inner =>
    let inner ← evalExpr (depth + 1) inner
    let flag ← free (asBool inner.value)
    built (.bool !flag)
  -- A false conjunct and a true disjunct answer alone: the right term is not evaluated.
  | .and left right =>
    let left ← evalExpr (depth + 1) left
    if ← free (asBool left.value) then
      let right ← evalExpr (depth + 1) right
      let flag ← free (asBool right.value)
      built (.bool flag)
    else built (.bool false)
  | .or left right =>
    let left ← evalExpr (depth + 1) left
    if ← free (asBool left.value) then built (.bool true)
    else
      let right ← evalExpr (depth + 1) right
      let flag ← free (asBool right.value)
      built (.bool flag)
  | .add left right =>
    let left ← evalExpr (depth + 1) left
    let right ← evalExpr (depth + 1) right
    let sum ← free (addValues left.value right.value)
    built sum
  | .eq left right =>
    let left ← evalExpr (depth + 1) left
    let right ← evalExpr (depth + 1) right
    spend (left.value.walked + right.value.walked)
    let same ← free (equals left.value right.value)
    built same
  | .lt left right =>
    let left ← evalExpr (depth + 1) left
    let right ← evalExpr (depth + 1) right
    let less ← free (lessThan left.value right.value)
    built less
  | .contains map key =>
    let map ← evalExpr (depth + 1) map
    let pairs ← free (elements map.value)
    let key ← evalExpr (depth + 1) key
    let hit ← find key.value pairs
    built (.bool hit.isSome)

def evalMaterial (depth : ℕ) : Exprs → Metered (List Value)
  | .nil => return []
  | .cons e es => do
    let part ← evalExpr depth e
    spend part.value.walked
    canonicalBytes part.value
    let rest ← evalMaterial depth es
    return part.value :: rest

def evalAll (depth : ℕ) : Exprs → Metered (List Value)
  | .nil => return []
  | .cons e es => do
    let item ← evalExpr depth e
    let item ← forced item
    let rest ← evalAll depth es
    return item :: rest

def evalSlot (point : Bool) (depth : ℕ) : SlotRef → Metered SlotId
  | .fixed slot => return slot
  | .reached e => do
    let named ← evalExpr depth e
    let named ← free (asU64 named.value)
    free (reachableSlot point named)

end

end

end HyperscaleVm.Effects

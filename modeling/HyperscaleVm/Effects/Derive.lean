import HyperscaleVm.Effects.Expr

/-!
# Derived keys and resolved grants (`effects/src/types.rs`, `resource.rs`, `instance.rs`)

Every key, collection and address under an instance is a digest of what it is
derived from. A `Hasher` gives the digests; the model never looks inside one.
Material is hashed as its canonical bytes, which a value and its encoding fix in
both directions, so a digest here is a function of the values themselves.
-/

namespace HyperscaleVm.Effects
open Std (ExtTreeMap)

def MAX_CONFIG_FIELDS : ℕ := 64

structure InstanceMeta where
  package : ℕ
  config : List Value
  salt : ℕ

/-- The digests the derivations take, one for each domain they hash under, and the
encoding of an instance's record (`none` past its cap). -/
structure Hasher where
  child : Address → SlotId → List Value → ℕ
  collection : Address → SlotId → List Value → ℕ
  order : Address → SlotId → List Value → ℕ
  resource : Address → ResourceKind → ResourceGrants → List Value → ℕ
  component : InstanceMeta → ℕ
  fresh : ℕ → ℕ → ℕ → ℕ
  leafBytes : InstanceMeta → Option (List ℕ)

section

variable (H : Hasher)

def childKey (owner : Address) (slot : SlotId) (material : List Value) : SubstateKey :=
  ⟨owner, H.child owner slot material⟩

def grantingResourceAddress (namespace_ : Address) (kind : ResourceKind) (rules : ResourceGrants)
    (material : List Value) : ResourceAddr :=
  ⟨⟨H.resource namespace_ kind rules material, rules.addressClass⟩, by
    unfold ResourceGrants.addressClass
    split <;> rfl⟩

def grantingIssuedResource (instance_ : Address) (kind : ResourceKind) (rules : ResourceGrants)
    (mark : List ℕ) : ResourceAddr :=
  grantingResourceAddress H instance_ kind rules [.bytes mark]

def vaultCell (owner : Address) (resource : ResourceAddr) : SubstateKey :=
  childKey H owner VAULT [.address resource.1]

def resourceRecordKey (issuer : Address) (resource : Address) : SubstateKey :=
  childKey H issuer RESOURCE [.address resource]

def holdingsCollection (holder : Address) (resource : Address) : ℕ :=
  H.collection holder NF_VAULT [.address resource]

def haltFlag (holder : Address) (resource : Address) : SubstateKey :=
  childKey H holder HALT [.address resource]

def freshId (identity nodeIndex slot : ℕ) : ℕ := H.fresh identity nodeIndex slot % 2 ^ 64

def freshLocal (identity nodeIndex slot : ℕ) : ℕ := H.fresh identity nodeIndex slot % 2 ^ 128

end

/-- Child keys and collection ids of one owner tell slot and material apart, a fresh key,
hashed under a domain of its own, is no child key, and a resource's address commits to its
issuer, its kind, its grants and its material. -/
structure Hasher.Injective (H : Hasher) : Prop where
  child : ∀ {owner slot slot' material material'},
    H.child owner slot material = H.child owner slot' material' →
      slot = slot' ∧ material = material'
  collection : ∀ {owner slot slot' material material'},
    H.collection owner slot material = H.collection owner slot' material' →
      slot = slot' ∧ material = material'
  fresh : ∀ {owner slot material identity nodeIndex n},
    H.child owner slot material ≠ freshLocal H identity nodeIndex n
  resource : ∀ {issuer issuer' kind kind' rules rules' material material'},
    H.resource issuer kind rules material = H.resource issuer' kind' rules' material' →
      issuer = issuer' ∧ kind = kind' ∧ rules = rules' ∧ material = material'

inductive GrantsResolveError where
  | noSuchField (slot : ℕ)
  | notAClaim (slot : ℕ)
  | pastTheCaps
  | badgeChainTooDeep
  | wrongQuestion (behaviour : GrantedBehaviour)
  | restatesAbsence (behaviour : GrantedBehaviour)
  deriving DecidableEq

/-- A rule asking the other party than its behaviour does, or spelling what the entry's absence
already says. -/
def GrantedBehaviour.refuses (behaviour : GrantedBehaviour) (rule : StoredRule) :
    Option GrantsResolveError :=
  let actor := behaviour.asksAboutTheActor
  let claims := rule.leaves.all fun leaf =>
    match leaf with
    | .claim _ => true
    | .held _ _ => false
  if actor && !claims then some (.wrongQuestion behaviour)
  else
    match actor, rule with
    | true, .countOf 1 [] => some (.restatesAbsence behaviour)
    | false, .countOf 0 [] => some (.restatesAbsence behaviour)
    | _, _ => none

def configured (config : List Value) (slot : ℕ) : Except GrantsResolveError Claim :=
  match config[slot]? with
  | none => .error (.noSuchField slot)
  | some value =>
    match Claim.of value with
    | some claim => .ok claim
    | none => .error (.notAClaim slot)

section

variable (H : Hasher) (instance_ : Address) (config : List Value)

/-- What a configured claim asks of a holder: its badge held, in either shape where
the field does not say which, or the claim itself where it names no badge. -/
def configuredHolding (slot : ℕ) : Except GrantsResolveError StoredRule := do
  let named ← configured config slot
  match named.badge, named.instance_ with
  | none, _ => return StoredRule.claim named
  | some badge, none =>
    return .countOf 1 [StoredRule.held badge .balance, StoredRule.held badge .anyInstance]
  | some badge, some id => return StoredRule.held badge (.instance_ id)

mutual

def GrantsExpr.resolveInto (link : ℕ) (resolved : ResourceGrants) :
    GrantsExpr → Except GrantsResolveError ResourceGrants
  | .nil => .ok resolved
  | .cons behaviour rule rest => do
    let stored ← rule.resolveRule behaviour link
    match behaviour.refuses stored with
    | some refusal => .error refusal
    | none =>
      if stored.withinCaps 0 then
        rest.resolveInto link (resolved.insert behaviour (.encoded stored))
      else .error .pastTheCaps

def GrantRuleExpr.resolveRule (behaviour : GrantedBehaviour) (link : ℕ) :
    GrantRuleExpr → Except GrantsResolveError StoredRule
  | .require subject => subject.resolve behaviour link
  | .countOf count rules => do return .countOf count (← rules.resolveRules behaviour link)

def GrantRuleExprs.resolveRules (behaviour : GrantedBehaviour) (link : ℕ) :
    GrantRuleExprs → Except GrantsResolveError (List StoredRule)
  | .nil => .ok []
  | .cons rule rules => do
    let rule ← rule.resolveRule behaviour link
    let rules ← rules.resolveRules behaviour link
    return rule :: rules

/-- `resolve_claim` where the behaviour asks about the actor, else `resolve_holding`.
An issuing instance is callable, so its own claim is its subject's. -/
def GrantSubject.resolve (behaviour : GrantedBehaviour) (link : ℕ) :
    GrantSubject → Except GrantsResolveError StoredRule
  | .selfAddr => .ok (StoredRule.claim (Claim.ofSubject instance_))
  | .selfBadge mark kind rules =>
    if link > 0 then .error .badgeChainTooDeep
    else do
      let rules ← rules.resolveInto (link + 1) ∅
      let badge := grantingIssuedResource H instance_ kind rules mark
      if behaviour.asksAboutTheActor then return StoredRule.claim (Claim.ofSubject badge.1)
      else
        match kind with
        | .fungible => return StoredRule.held badge .balance
        | .nonFungible => return StoredRule.held badge .anyInstance
  | .selfInstance mark id rules =>
    if link > 0 then .error .badgeChainTooDeep
    else do
      let rules ← rules.resolveInto (link + 1) ∅
      let badge := grantingIssuedResource H instance_ .nonFungible rules mark
      if behaviour.asksAboutTheActor then return StoredRule.claim (Claim.ofInstance badge id)
      else return StoredRule.held badge (.instance_ id)
  | .config slot =>
    if behaviour.asksAboutTheActor then do return StoredRule.claim (← configured config slot)
    else configuredHolding config slot

end

def GrantsExpr.resolve (grants : GrantsExpr) : Except GrantsResolveError ResourceGrants :=
  grants.resolveInto H instance_ config 0 ∅

end

end HyperscaleVm.Effects

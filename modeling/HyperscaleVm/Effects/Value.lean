import HyperscaleVm.Types.Effect

/-!
# Values, claims and the slot vocabulary (`effects/src/types.rs`, `claim.rs`, `vocabulary.rs`)

The values a declaration is evaluated over, the claim a value names, and the
slots the protocol numbers. Integers are naturals: an operation that can pass
the width of its type checks the bound where the source does.
-/

namespace HyperscaleVm.Effects

inductive ResourceKind where
  | fungible
  | nonFungible
  deriving DecidableEq

def ResourceKind.tag : ResourceKind → ℕ
  | .fungible => 0
  | .nonFungible => 1

theorem ResourceKind.tag_injective : Function.Injective ResourceKind.tag := by
  intro a b h
  cases a <;> cases b <;> first | rfl | cases h

inductive EdgeContent where
  | fungible
  | nonFungible (ids : List ℕ)
  deriving DecidableEq

def EdgeContent.kind : EdgeContent → ResourceKind
  | .fungible => .fungible
  | .nonFungible _ => .nonFungible

mutual

inductive Value where
  | bool (b : Bool)
  | u64 (n : ℕ)
  | u128 (n : ℕ)
  | u256 (n : ℕ)
  | bytes (bs : List ℕ)
  | address (a : Address)
  | key (k : SubstateKey)
  | tuple (fields : Values)
  | list (items : Values)
  | bucket (resource : ResourceAddr) (content : EdgeContent)
  deriving DecidableEq

inductive Values where
  | nil
  | cons (head : Value) (tail : Values)
  deriving DecidableEq

end

def Values.toList : Values → List Value
  | .nil => []
  | .cons v vs => v :: vs.toList

def Values.ofList : List Value → Values
  | [] => .nil
  | v :: vs => .cons v (ofList vs)

@[simp]
theorem Values.toList_ofList (vs : List Value) : (ofList vs).toList = vs := by
  induction vs with
  | nil => rfl
  | cons v vs ih => rw [ofList, toList, ih]

inductive ValueKind where
  | bool
  | u64
  | u128
  | u256
  | bytes
  | address
  | key
  | tuple
  | list
  | bucket
  deriving DecidableEq

def ValueKind.text : ValueKind → String
  | .bool => "bool"
  | .u64 => "u64"
  | .u128 => "u128"
  | .u256 => "u256"
  | .bytes => "bytes"
  | .address => "address"
  | .key => "key"
  | .tuple => "tuple"
  | .list => "list"
  | .bucket => "bucket"

def Value.kind : Value → ValueKind
  | .bool _ => .bool
  | .u64 _ => .u64
  | .u128 _ => .u128
  | .u256 _ => .u256
  | .bytes _ => .bytes
  | .address _ => .address
  | .key _ => .key
  | .tuple _ => .tuple
  | .list _ => .list
  | .bucket _ _ => .bucket

mutual

def Value.depth : Value → ℕ
  | .tuple fields => 1 + fields.depth
  | .list items => 1 + items.depth
  | _ => 1

def Values.depth : Values → ℕ
  | .nil => 0
  | .cons v vs => max v.depth vs.depth

end

/-- A slot number (`u16`): the protocol's, then the packages', then the kernel's. -/
abbrev SlotId := ℕ

def PACKAGE_SLOT_BASE : SlotId := 16
def KERNEL_SLOT_BASE : SlotId := 0xFFF5

def VAULT : SlotId := 1
def CONFIG : SlotId := 2
def AUTH : SlotId := 3
def RESOURCE : SlotId := 4
def NF_VAULT : SlotId := 5
def INSTANCE : SlotId := 6
def HALT : SlotId := 7

def MAX_VALUE_DEPTH : ℕ := 16
def MAX_VALUE_ITEMS : ℕ := 1024
def MAX_VALUE_BYTES : ℕ := 4096
def MAX_IDS_PER_EDGE : ℕ := 64

def callable (a : Address) : Bool :=
  match a.cls with
  | .principal | .component => true
  | _ => false

/-- What a presented or proven claim says: this subject acts, or this instance is held. -/
structure Claim where
  subject : Address
  instance_ : Option ℕ
  deriving DecidableEq

namespace Claim

def ofSubject (subject : Address) : Claim := ⟨subject, none⟩

def ofInstance (badge : ResourceAddr) (id : ℕ) : Claim := ⟨badge.1, some id⟩

def widened (c : Claim) : Option Claim :=
  if c.instance_.isSome then some (ofSubject c.subject) else none

def badge (c : Claim) : Option ResourceAddr := c.subject.toResource?

def ofAddress (a : Address) : Option Claim :=
  if a.isResource || callable a then some (ofSubject a) else none

def of : Value → Option Claim
  | .address a => ofAddress a
  | .tuple (.cons (.address a) (.cons (.u64 id) .nil)) =>
    a.toResource?.map fun badge => ofInstance badge id
  | _ => none

end Claim

end HyperscaleVm.Effects

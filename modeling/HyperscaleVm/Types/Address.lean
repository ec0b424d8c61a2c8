import HyperscaleVm.Library.OrdMap

/-!
# Addresses, keys and effect targets (`types/src/address.rs`)

An address is thirty-one bytes of body under a class tag, a leaf is an owner and
a hashed local key, and an effect names a leaf, one entry of an ordered
collection, or an interval of one. Digests (address bodies, local keys,
collection ids) are natural numbers: nothing here computes on their bytes, and
their order is the byte order of the source.
-/

namespace HyperscaleVm
open List

inductive AddressClass where
  | principal
  | component
  | package
  | resource
  | native
  | restricted
  deriving DecidableEq

def AddressClass.tag : AddressClass → ℕ
  | .principal => 0x01
  | .component => 0x02
  | .package => 0x03
  | .resource => 0x04
  | .native => 0x05
  | .restricted => 0x06

theorem AddressClass.tag_injective : Function.Injective AddressClass.tag := by
  intro a b h
  cases a <;> cases b <;> first | rfl | cases h

structure Address where
  body : ℕ
  cls : AddressClass
  deriving DecidableEq

def Address.bytes (a : Address) : List ℕ := [a.body, a.cls.tag]

theorem Address.bytes_injective : Function.Injective Address.bytes := by
  rintro ⟨b, c⟩ ⟨b', c'⟩ h
  simp only [bytes, List.cons.injEq, and_true] at h
  rw [h.1, AddressClass.tag_injective h.2]

instance : LinearOrder Address := LinearOrder.lift' Address.bytes Address.bytes_injective

def Address.isResource (a : Address) : Bool :=
  match a.cls with
  | .resource | .restricted => true
  | _ => false

abbrev ResourceAddr := { a : Address // a.isResource = true }

instance ResourceAddr.transCmp : Std.TransCmp (compare : ResourceAddr → _) := inferInstance

def ResourceAddr.numbered (body : ℕ) : ResourceAddr := ⟨⟨body, .resource⟩, rfl⟩

/-- `ResourceAddr::try_from`. -/
def Address.toResource? (a : Address) : Option ResourceAddr :=
  if h : a.isResource = true then some ⟨a, h⟩ else none

structure SubstateKey where
  owner : Address
  local_ : ℕ
  deriving DecidableEq

def SubstateKey.bytes (k : SubstateKey) : List ℕ := k.owner.bytes ++ [k.local_]

theorem SubstateKey.bytes_injective : Function.Injective SubstateKey.bytes := by
  rintro ⟨o, l⟩ ⟨o', l'⟩ h
  obtain ⟨ho, hl⟩ := append_inj h rfl
  obtain rfl : o = o' := Address.bytes_injective ho
  obtain rfl : l = l' := singleton_inj.mp hl
  rfl

instance : LinearOrder SubstateKey :=
  LinearOrder.lift' SubstateKey.bytes SubstateKey.bytes_injective

structure EntryKey where
  owner : Address
  collection : ℕ
  order : ℕ
  deriving DecidableEq

def EntryKey.bytes (k : EntryKey) : List ℕ := k.owner.bytes ++ [k.collection, k.order]

theorem EntryKey.bytes_injective : Function.Injective EntryKey.bytes := by
  rintro ⟨o, c, n⟩ ⟨o', c', n'⟩ h
  obtain ⟨ho, hl⟩ := append_inj h rfl
  obtain rfl : o = o' := Address.bytes_injective ho
  obtain ⟨rfl, rfl⟩ : c = c' ∧ n = n' := by simpa using hl
  rfl

instance : LinearOrder EntryKey := LinearOrder.lift' EntryKey.bytes EntryKey.bytes_injective

inductive EffectTarget where
  | point (key : SubstateKey)
  | entry (owner : Address) (collection : ℕ) (order : ℕ)
  | range (owner : Address) (collection : ℕ) (lo hi : ℕ) (cap : ℕ)
  deriving DecidableEq

def EffectTarget.bytes : EffectTarget → List ℕ
  | .point key => 0 :: key.bytes
  | .entry owner collection order => 1 :: (owner.bytes ++ [collection, order])
  | .range owner collection lo hi cap => 2 :: (owner.bytes ++ [collection, lo, hi, cap])

theorem EffectTarget.bytes_injective : Function.Injective EffectTarget.bytes := by
  intro a b h
  match a, b with
  | .point k, .point k' => rw [SubstateKey.bytes_injective (List.cons.inj h).2]
  | .entry o c n, .entry o' c' n' =>
    obtain ⟨ho, hl⟩ := append_inj (List.cons.inj h).2 rfl
    obtain ⟨rfl, rfl⟩ : c = c' ∧ n = n' := by simpa using hl
    rw [Address.bytes_injective ho]
  | .range o c l u m, .range o' c' l' u' m' =>
    obtain ⟨ho, hl⟩ := append_inj (List.cons.inj h).2 rfl
    obtain ⟨rfl, rfl, rfl, rfl⟩ : c = c' ∧ l = l' ∧ u = u' ∧ m = m' := by simpa using hl
    rw [Address.bytes_injective ho]
  | .point _, .entry _ _ _ | .point _, .range _ _ _ _ _ | .entry _ _ _, .point _
  | .entry _ _ _, .range _ _ _ _ _ | .range _ _ _ _ _, .point _
  | .range _ _ _ _ _, .entry _ _ _ => exact absurd (List.cons.inj h).1 (by decide)

instance : LinearOrder EffectTarget :=
  LinearOrder.lift' EffectTarget.bytes EffectTarget.bytes_injective

def EffectTarget.owner : EffectTarget → Address
  | .point key => key.owner
  | .entry owner _ _ => owner
  | .range owner _ _ _ _ => owner

end HyperscaleVm

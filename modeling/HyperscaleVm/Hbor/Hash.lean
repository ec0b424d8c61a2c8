import HyperscaleVm.Library.LittleEndian

/-!
# The hashing seam (`hbor/src/hash.rs`)
-/

namespace HyperscaleVm.Hbor

export Library (Bytes leBytes)

structure Hash32 where
  bytes : Bytes
  sized : bytes.length = 32
  deriving DecidableEq

theorem Hash32.ext_bytes {a b : Hash32} (h : a.bytes = b.bytes) : a = b := by
  cases a
  cases b
  cases h
  rfl

structure HashInput where
  domain : Bytes
  parts : List Bytes
  deriving DecidableEq

structure Hasher where
  hash : HashInput → Hash32

/-- No two of these inputs share a hash. -/
def Hasher.Separates (H : Hasher) (inputs : List HashInput) : Prop :=
  ∀ a ∈ inputs, ∀ b ∈ inputs, H.hash a = H.hash b → a = b
deriving Decidable

def feed (state : UInt64) (bytes : Bytes) : UInt64 :=
  (leBytes 8 bytes.length ++ bytes).foldl
    (fun state byte => (state ^^^ byte.toUInt64) * 0x100000001b3) state

def mix (z : UInt64) : UInt64 :=
  let z := (z ^^^ (z >>> 30)) * 0xbf58476d1ce4e5b9
  let z := (z ^^^ (z >>> 27)) * 0x94d049bb133111eb
  z ^^^ (z >>> 31)

def testLane (input : HashInput) (lane : ℕ) : Bytes :=
  let seed : UInt64 := 0xcbf29ce484222325 ^^^ (UInt64.ofNat lane * 0x9e3779b97f4a7c15)
  leBytes 8 (mix (input.parts.foldl feed (feed seed input.domain))).toNat

def testHasher : Hasher where
  hash input :=
    { bytes := testLane input 0 ++ testLane input 1 ++ testLane input 2 ++ testLane input 3
      sized := by simp [testLane, Library.length_leBytes] }

end HyperscaleVm.Hbor

import HyperscaleVm.Effects.Value
import HyperscaleVm.Hbor.Depth

/-!
# Values on the wire (`types/src/address.rs`, `effects/src/types.rs`, `claim.rs`)
-/

namespace HyperscaleVm.Effects.Wire

open Library Hbor List
open Library.Codec (Charges Shallow Same)

def beBytes (width n : ℕ) : Bytes := (leBytes width n).reverse

def ofBeBytes (bytes : Bytes) : ℕ := ofLeBytes bytes.reverse

theorem length_beBytes (width n : ℕ) : (beBytes width n).length = width := by
  rw [beBytes, length_reverse, length_leBytes]

theorem ofBeBytes_beBytes {width n : ℕ} (h : n < 256 ^ width) :
    ofBeBytes (beBytes width n) = n := by
  rw [ofBeBytes, beBytes, reverse_reverse, ofLeBytes_leBytes h]

theorem beBytes_ofBeBytes (bytes : Bytes) : beBytes bytes.length (ofBeBytes bytes) = bytes := by
  have h := leBytes_ofLeBytes bytes.reverse
  rw [length_reverse] at h
  rw [beBytes, ofBeBytes, h, reverse_reverse]

theorem ofBeBytes_lt (bytes : Bytes) : ofBeBytes bytes < 256 ^ bytes.length := by
  have h := ofLeBytes_lt bytes.reverse
  rw [length_reverse] at h
  exact h

/-- `[u8; n]` read as a digest. -/
def digest (n : ℕ) : Wire ℕ :=
  (Codec.raw n (short n)).via
    (fun v => if v < 256 ^ n then .ok ⟨beBytes n v, length_beBytes n v⟩
      else .error .unrepresentable)
    (fun raw => .ok (ofBeBytes raw.1)) (by
      rintro ⟨raw, rfl⟩ v
      constructor
      · intro h
        cases h
        rw [if_pos (ofBeBytes_lt raw)]
        congr 1
        exact Subtype.ext (beBytes_ofBeBytes raw)
      · intro h
        split at h
        · rename_i hv
          have hraw := congrArg Subtype.val (Except.ok.inj h)
          rw [← hraw, ofBeBytes_beBytes hv]
        · cases h)

def classTag (cls : AddressClass) : UInt8 := UInt8.ofNat cls.tag

def fromTag (tag : UInt8) : Option AddressClass :=
  [AddressClass.principal, .component, .package, .resource, .native, .restricted].find?
    fun cls => classTag cls = tag

theorem fromTag_classTag (cls : AddressClass) : fromTag (classTag cls) = some cls := by
  cases cls <;> rfl

theorem classTag_of_fromTag {tag : UInt8} {cls : AddressClass} (h : fromTag tag = some cls) :
    classTag cls = tag := by
  simpa using find?_some h

def address : Wire Address :=
  (Codec.raw 32 (short 32)).via
    (fun a => if a.body < 256 ^ 31 then
        .ok ⟨beBytes 31 a.body ++ [classTag a.cls], by rw [length_append, length_beBytes]; rfl⟩
      else .error .unrepresentable)
    (fun raw =>
      match fromTag (raw.1.getLastD 0) with
      | some cls => .ok ⟨ofBeBytes raw.1.dropLast, cls⟩
      | none => .error (.invalidDiscriminant (raw.1.getLastD 0))) (by
      rintro ⟨raw, hlength⟩ a
      obtain ⟨body, tag, rfl⟩ : ∃ body tag, raw = body ++ [tag] := by
        have hne : raw ≠ [] := by
          rintro rfl
          cases hlength
        exact ⟨raw.dropLast, raw.getLast hne, (dropLast_append_getLast hne).symm⟩
      have hbody : body.length = 31 := by simpa using hlength
      simp only [getLastD_concat, dropLast_concat]
      constructor
      · intro h
        split at h
        · rename_i cls hcls
          cases h
          have hlt := ofBeBytes_lt body
          have hback := beBytes_ofBeBytes body
          rw [hbody] at hlt hback
          rw [if_pos hlt]
          congr 1
          apply Subtype.ext
          simp only [hback, classTag_of_fromTag hcls]
        · cases h
      · intro h
        split at h
        · rename_i hlt
          have hraw := congrArg Subtype.val (Except.ok.inj h)
          obtain ⟨rfl, htag⟩ := append_inj' hraw rfl
          cases htag
          rw [fromTag_classTag, ofBeBytes_beBytes hlt]
        · cases h)

def classed (good : Address → Bool) : Wire { a : Address // good a = true } :=
  address.via (fun a => .ok a.1)
    (fun a => if h : good a = true then
      .ok ⟨a, h⟩ else .error (.invalidDiscriminant (classTag a.cls)))
    (by
      rintro a ⟨a', h⟩
      constructor
      · intro hbuild
        split at hbuild
        · exact congrArg Except.ok (congrArg Subtype.val (Except.ok.inj hbuild)).symm
        · cases hbuild
      · intro hview
        cases hview
        exact dif_pos h)

/-- `PrincipalAddr`, which the model carries as the address it is. -/
def principal : Wire Address :=
  (classed fun a => a.cls = .principal).via
    (fun a => if h : decide (a.cls = .principal) = true then
      .ok ⟨a, h⟩ else .error .unrepresentable)
    (fun a => .ok a.1) (by
      rintro ⟨a', h⟩ a
      constructor
      · intro hbuild
        cases hbuild
        exact dif_pos h
      · intro hview
        split at hview
        · exact congrArg Except.ok (congrArg Subtype.val (Except.ok.inj hview)).symm
        · cases hview)

def resourceAddr : Wire ResourceAddr := classed Address.isResource

theorem digest_shallow (n : ℕ) : Shallow 0 (digest n) := (raw_shallow n).via

theorem address_shallow : Shallow 0 address := (raw_shallow 32).via

theorem classed_shallow (good : Address → Bool) : Shallow 0 (classed good) := address_shallow.via

theorem principal_shallow : Shallow 0 principal := (classed_shallow _).via

def substateKey : Wire SubstateKey :=
  ((nested address).seq (nested (digest 16))).iso
    { toFun := fun key => (key.owner, key.local_)
      invFun := fun fields => ⟨fields.1, fields.2⟩ }

def claim : Wire Claim :=
  ((nested address).seq (nested (option (uint 8)))).iso
    { toFun := fun claim => (claim.subject, claim.instance_)
      invFun := fun fields => ⟨fields.1, fields.2⟩ }

theorem claim_shallow : Shallow 2 claim :=
  (((nested_shallow address_shallow).mono (by decide)).seq
    (nested_shallow (option_shallow (uint_shallow 8)))).iso

def edgeContentTag : EdgeContent → UInt8
  | .fungible => 0
  | .nonFungible _ => 1

def ids : Wire (List ℕ) := vec (some MAX_IDS_PER_EDGE) (uint 8) (by decide)

def edgeContent : Wire EdgeContent :=
  enum edgeContentTag
    [variant 0 Codec.empty (fun _ => .fungible) (fun | .fungible => some () | _ => none),
    variant 1 (nested ids) .nonFungible (fun | .nonFungible ids => some ids | _ => none)]
    1 (fun _ _ => Nat.le_add_right 1 _)

def contentLevels : EdgeContent → ℕ
  | .fungible => 0
  | .nonFungible _ => 2

variable {room : ℕ}

theorem edgeContent_charges : Charges room edgeContent contentLevels contentLevels := by
  apply enum_charges
  intro arm harm
  rcases mem_pair.mp harm with rfl | rfl
  · exact variant_charges (Charges.flat fun _ _ _ => rfl) fun _ => ⟨le_rfl, le_rfl⟩
  have hids : ∀ room, Charges room ids (fun _ => 1) (fun _ => 1) := by
    intro room
    unfold ids vec
    refine (sequence_charges fun below _ => uint_shallow 8 below).mono (fun _ => ?_) (fun _ => ?_)
    · exact Nat.le_add_left 1 _
    · exact Nat.succ_le_succ (deepest_le.mpr fun _ _ => le_rfl)
  exact variant_charges (nested_charges fun below _ => hids below) fun _ => ⟨le_rfl, le_rfl⟩

def valueTag : Value → UInt8
  | .bool _ => 0
  | .u64 _ => 1
  | .u128 _ => 2
  | .u256 _ => 3
  | .bytes _ => 4
  | .address _ => 5
  | .key _ => 6
  | .tuple _ => 7
  | .list _ => 8
  | .bucket _ _ => 9

/-- `Vec<u8>` through the byte fast path. -/
def byteList : Wire (List ℕ) :=
  (bytes none).via
    (fun bs => if ∀ b ∈ bs, b < 256 then .ok (bs.map UInt8.ofNat) else .error .unrepresentable)
    (fun raw => .ok (raw.map UInt8.toNat)) (by
      intro raw bs
      constructor
      · intro h
        cases h
        have hbytes : ∀ b ∈ raw.map UInt8.toNat, b < 256 := by
          intro b hb
          obtain ⟨byte, -, rfl⟩ := mem_map.mp hb
          exact byte.toNat_lt
        rw [if_pos hbytes, map_map]
        congr 1
        conv_rhs => rw [← map_id raw]
        exact map_congr_left fun byte _ => ofNat_toNat byte
      · intro h
        split at h
        · rename_i hbytes
          cases h
          rw [map_map]
          congr 1
          conv_rhs => rw [← map_id bs]
          exact map_congr_left fun b hb => toNat_ofNat (hbytes b hb)
        · cases h)

theorem ofList_toList : (vs : Values) → Values.ofList vs.toList = vs
  | .nil => rfl
  | .cons v vs => by rw [Values.toList, Values.ofList, ofList_toList vs]

def valuesEquiv : Values ≃ List Value where
  toFun := Values.toList
  invFun := Values.ofList
  left_inv := ofList_toList
  right_inv := Values.toList_ofList

mutual

/-- `value_within_width`: the first refusal of its walk, which takes the last member first. -/
def widthRefusal : Value → Option String
  | .bytes bs =>
    if MAX_VALUE_BYTES < bs.length then some "a byte string exceeds the value width cap" else none
  | .tuple vs | .list vs =>
    if MAX_VALUE_ITEMS < vs.toList.length then
      some "a list or tuple exceeds the value width cap"
    else widthRefusals vs
  | _ => none

def widthRefusals : Values → Option String
  | .nil => none
  | .cons v vs => widthRefusals vs <|> widthRefusal v

end

def valueWithinWidth (v : Value) : Except DecodeError Unit :=
  match widthRefusal v with
  | some reason => .error (.failedValidation reason)
  | none => .ok ()

section Layer

variable (c : Wire Value) (h : c.width = 2)

def members : Wire Values := (vec none c (by omega)).iso valuesEquiv

def valueArms : List (Codec.Arm EncodeError DecodeError valueTag) :=
  [variant 0 (nested Hbor.bool) .bool (fun | .bool b => some b | _ => none),
  variant 1 (nested (uint 8)) .u64 (fun | .u64 n => some n | _ => none),
  variant 2 (nested (uint 16)) .u128 (fun | .u128 n => some n | _ => none),
  variant 3 (nested (uint 32)) .u256 (fun | .u256 n => some n | _ => none),
  variant 4 (nested byteList) .bytes (fun | .bytes bs => some bs | _ => none),
  variant 5 (nested address) .address (fun | .address a => some a | _ => none),
  variant 6 (nested substateKey) .key (fun | .key k => some k | _ => none),
  variant 7 (nested (members c h)) .tuple (fun | .tuple vs => some vs | _ => none),
  variant 8 (nested (members c h)) .list (fun | .list vs => some vs | _ => none),
  variant 9 ((nested resourceAddr).seq (nested edgeContent))
    (fun fields => .bucket fields.1 fields.2)
    (fun | .bucket resource content => some (resource, content) | _ => none)
    (by
      rintro v ⟨resource, content⟩
      cases v <;> simp [eq_comm])]

end Layer

def valueLayer : Codec.Layer EncodeError DecodeError Value 2 where
  over_ c h := (enum valueTag (valueArms c h) 2 (by
    simp only [valueArms, forall_mem_cons]
    refine ⟨?_, ?_, ?_, ?_, ?_, ?_, ?_, ?_, ?_, ?_, forall_mem_nil _⟩ <;>
      first | exact le_rfl | decide)).check valueWithinWidth
  width_eq _ _ := rfl
  contractive := by
    intro room c c' h h' hbelow
    have hmembers : ∀ below < room, Same below (members c h) (members c' h') := by
      intro below hlt
      apply Same.iso
      exact sequence_same (h.trans h'.symm) fun lower hlower => hbelow lower (hlower.trans hlt)
    refine Same.check (Same.enum ?_)
    exact .cons .rfl (.cons .rfl (.cons .rfl (.cons .rfl (.cons .rfl (.cons .rfl (.cons .rfl
      (.cons (variant_same (nested_same hmembers)) (.cons (variant_same (nested_same hmembers))
        (.cons .rfl .nil)))))))))

def value : Wire Value := valueLayer.fix .depthExceeded .depthExceeded

mutual

def valueLevels : Value → ℕ
  | .bytes _ => 2
  | .key _ => 2
  | .tuple vs => 2 + valuesLevels vs
  | .list vs => 2 + valuesLevels vs
  | .bucket _ content => 1 + contentLevels content
  | _ => 1

def valuesLevels : Values → ℕ
  | .nil => 0
  | .cons v vs => max (valueLevels v) (valuesLevels vs)

end

theorem depth_pos (v : Value) : 1 ≤ v.depth := by
  cases v <;> simp [Value.depth]

def isLeaf : Value → Bool
  | .tuple _ | .list _ => false
  | _ => true

structure NestedCases (P : Value → Prop) (Q : Values → Prop) : Prop where
  leaf : ∀ v, isLeaf v = true → P v
  tuple : ∀ vs, Q vs → P (.tuple vs)
  list : ∀ vs, Q vs → P (.list vs)
  nil : Q .nil
  cons : ∀ v vs, P v → Q vs → Q (.cons v vs)

mutual

theorem NestedCases.value {P : Value → Prop} {Q : Values → Prop} (h : NestedCases P Q) :
    (v : Value) → P v
  | .tuple vs => h.tuple vs (h.values vs)
  | .list vs => h.list vs (h.values vs)
  | .bool _ => h.leaf _ rfl
  | .u64 _ => h.leaf _ rfl
  | .u128 _ => h.leaf _ rfl
  | .u256 _ => h.leaf _ rfl
  | .bytes _ => h.leaf _ rfl
  | .address _ => h.leaf _ rfl
  | .key _ => h.leaf _ rfl
  | .bucket _ _ => h.leaf _ rfl

theorem NestedCases.values {P : Value → Prop} {Q : Values → Prop} (h : NestedCases P Q) :
    (vs : Values) → Q vs
  | .nil => h.nil
  | .cons v vs => h.cons v vs (h.value v) (h.values vs)

end

theorem leaf_levels {v : Value} (h : isLeaf v = true) : valueLevels v ≤ 3 := by
  cases v with
  | tuple | list => cases h
  | bucket resource content => cases content <;> simp [valueLevels, contentLevels]
  | _ => simp [valueLevels]

theorem valueLevels_le : NestedCases
    (fun v => ∀ bound, v.depth ≤ bound → valueLevels v ≤ 2 * bound + 1)
    (fun vs => ∀ bound, vs.depth ≤ bound → valuesLevels vs ≤ 2 * bound + 1) := by
  constructor
  · intro v hleaf bound hdepth
    have hlevels := leaf_levels hleaf
    have hpos := depth_pos v
    omega
  case tuple | list =>
    intro vs ih bound hdepth
    rw [Value.depth] at hdepth
    have hmembers := ih (bound - 1) (by omega)
    rw [valueLevels]
    omega
  · exact fun bound _ => Nat.zero_le _
  · intro v vs ihv ihvs bound hdepth
    rw [Values.depth] at hdepth
    have hhead := ihv bound (by omega)
    have htail := ihvs bound (by omega)
    rw [valuesLevels]
    omega

theorem deepest_toList : (vs : Values) → deepest valueLevels vs.toList = valuesLevels vs
  | .nil => rfl
  | .cons v vs => by rw [Values.toList, deepest, valuesLevels, deepest_toList vs]

theorem substateKey_charges : Charges room substateKey (fun _ => 1) (fun _ => 1) :=
  ((nested_charges fun below _ => address_shallow below).seq
    (nested_charges fun below _ => digest_shallow 16 below)).iso fun _ => ⟨le_rfl, le_rfl⟩

theorem byteList_charges : Charges room byteList (fun _ => 1) (fun _ => 1) :=
  (bytes_charges none).via fun _ _ _ => ⟨le_rfl, le_rfl⟩

theorem members_charges {c : Wire Value} {h : c.width = 2}
    (hbelow : ∀ below < room, Charges below c valueLevels valueLevels) :
    Charges room (members c h) (fun vs => valuesLevels vs + 1) (fun vs => valuesLevels vs + 1) := by
  unfold members vec
  refine (sequence_charges hbelow).iso fun vs => ?_
  have hdeepest : deepest valueLevels (valuesEquiv vs) = valuesLevels vs := deepest_toList vs
  rw [hdeepest]
  exact ⟨le_rfl, le_rfl⟩

theorem value_charges : Charges room value valueLevels valueLevels := by
  apply Charges.fix
  intro room c h hbelow
  have hmembers : ∀ below < room, Charges below (members c h) (fun vs => valuesLevels vs + 1)
      (fun vs => valuesLevels vs + 1) := fun below hlt =>
    members_charges fun lower hlower => hbelow lower (hlower.trans hlt)
  have hnested : Charges room (nested (members c h)) (fun vs => valuesLevels vs + 1 + 1)
      (fun vs => valuesLevels vs + 1 + 1) := nested_charges hmembers
  have htwo : ∀ vs, 2 + valuesLevels vs = valuesLevels vs + 1 + 1 := fun vs => by omega
  have hleaf : ∀ {α : Type} {c : Wire α}, Shallow 0 c →
      Charges room (nested c) (fun _ => 1) (fun _ => 1) := fun hflat =>
    nested_charges fun below _ => hflat below
  apply Charges.check
  apply enum_charges
  simp only [valueArms, forall_mem_cons]
  refine ⟨?_, ?_, ?_, ?_, ?_, ?_, ?_, ?_, ?_, ?_, forall_mem_nil _⟩
  · exact variant_charges (hleaf bool_shallow) fun _ => ⟨le_rfl, le_rfl⟩
  · exact variant_charges (hleaf (uint_shallow 8)) fun _ => ⟨le_rfl, le_rfl⟩
  · exact variant_charges (hleaf (uint_shallow 16)) fun _ => ⟨le_rfl, le_rfl⟩
  · exact variant_charges (hleaf (uint_shallow 32)) fun _ => ⟨le_rfl, le_rfl⟩
  · exact variant_charges (nested_charges fun _ _ => byteList_charges) fun _ => ⟨le_rfl, le_rfl⟩
  · exact variant_charges (hleaf address_shallow) fun _ => ⟨le_rfl, le_rfl⟩
  · exact variant_charges (nested_charges fun _ _ => substateKey_charges) fun _ => ⟨le_rfl, le_rfl⟩
  · exact variant_charges hnested fun vs => ⟨(htwo vs).le, (htwo vs).ge⟩
  · exact variant_charges hnested fun vs => ⟨(htwo vs).le, (htwo vs).ge⟩
  · refine variant_charges ((hleaf (classed_shallow _)).seq
      (nested_charges fun _ _ => edgeContent_charges)) fun fields => ?_
    have hsum : valueLevels (.bucket fields.1 fields.2) = max 1 (contentLevels fields.2 + 1) := by
      rw [valueLevels]
      omega
    exact ⟨hsum.le, hsum.ge⟩

end HyperscaleVm.Effects.Wire

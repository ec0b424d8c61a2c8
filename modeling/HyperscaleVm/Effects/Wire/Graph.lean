import HyperscaleVm.Effects.Admission.Tree

/-!
# Graphs on the wire (`effects/src/graph.rs`, `intent.rs`, `instance.rs`, `resource.rs`)

The codecs of everything an intent tree carries short of the intents themselves, each as
its derive writes it, with the levels it may take. Integers wider than their type, and
addresses of a class their newtype does not admit, are unrepresentable.
-/

namespace HyperscaleVm.Effects.Wire

open Library Hbor Admission List
open Library.Codec (Charges Shallow)

def edgeRef : Wire EdgeRef :=
  ((nested (uint 4)).seq (nested (uint 4))).iso
    { toFun := fun edge => (edge.producer, edge.output)
      invFun := fun fields => ⟨fields.1, fields.2⟩ }

def giveRef : Wire GiveRef :=
  ((nested (uint 4)).seq (nested (uint 4))).iso
    { toFun := fun give => (give.member, give.give)
      invFun := fun fields => ⟨fields.1, fields.2⟩ }

def constraintTag : Constraint → UInt8
  | .minAmount _ => 0
  | .maxAmount _ => 1
  | .resourceIs _ => 2

def constraint : Wire Constraint :=
  enum constraintTag
    [variant 0 (nested (uint 16)) .minAmount (fun | .minAmount amount => some amount | _ => none),
    variant 1 (nested (uint 16)) .maxAmount (fun | .maxAmount amount => some amount | _ => none),
    variant 2 (nested resourceAddr) .resourceIs
      (fun | .resourceIs resource => some resource | _ => none)]
    17 (by decide)

def valueRefTag : ValueRef → UInt8
  | .edge _ => 0
  | .give _ => 1
  | .socket _ => 2

def valueRef : Wire ValueRef :=
  enum valueRefTag
    [variant 0 (nested edgeRef) .edge (fun | .edge edge => some edge | _ => none),
    variant 1 (nested giveRef) .give (fun | .give give => some give | _ => none),
    variant 2 (nested (uint 4)) .socket (fun | .socket socket => some socket | _ => none)]
    5 (by decide)

def claimRefTag : ClaimRef → UInt8
  | .account _ => 0
  | .node _ => 1
  | .socket _ => 2

def claimRef : Wire ClaimRef :=
  enum claimRefTag
    [variant 0 (nested principal) .account (fun | .account account => some account | _ => none),
    variant 1 (nested (uint 4)) .node (fun | .node producer => some producer | _ => none),
    variant 2 (nested (uint 4)) .socket (fun | .socket socket => some socket | _ => none)]
    5 (by decide)

def claimRefKey : ClaimRef → List ℕ
  | .account account => 0 :: account.bytes
  | .node producer => [1, producer]
  | .socket socket => [2, socket]

def constraints : Wire (List Constraint) := vec none constraint (by decide)

def graphArgTag : GraphArg → UInt8
  | .literal _ => 0
  | .value _ _ => 1

def graphArg : Wire GraphArg :=
  enum graphArgTag
    [variant 0 (nested value) .literal (fun | .literal v => some v | _ => none),
    variant 1 ((nested valueRef).seq (nested constraints)) (fun fields => .value fields.1 fields.2)
      (fun | .value source constraints => some (source, constraints) | _ => none)
      (by
        rintro v ⟨source, constraints⟩
        cases v <;> simp [eq_comm])]
    3 (by decide)

def MAX_EVIDENCE_PER_NODE : ℕ := 8

def callTarget : Wire CallTarget := classed callable

def args : Wire (List GraphArg) := vec none graphArg (by decide)

/-- `Capped<BTreeSet<ClaimRef>, MAX_EVIDENCE_PER_NODE>`. -/
def evidence : Wire (List ClaimRef) :=
  sequence (some MAX_EVIDENCE_PER_NODE) (ascending claimRefKey) claimRef (by decide)

def graphNode : Wire GraphNode :=
  ((nested callTarget).seq ((nested (string none)).seq ((nested args).seq (nested evidence)))).iso
    { toFun := fun node => (node.target, node.method, node.args, node.evidence)
      invFun := fun fields => ⟨fields.1, fields.2.1, fields.2.2.1, fields.2.2.2⟩ }

def manifestGraph : Wire (List GraphNode) :=
  nested (vec (some MAX_MANIFEST_NODES) graphNode (by decide))

def socketTag : Socket → UInt8
  | .value _ _ => 0
  | .authority _ => 1

def socket : Wire Socket :=
  enum socketTag
    [variant 0 ((nested resourceAddr).seq (nested constraints))
      (fun fields => .value fields.1 fields.2)
      (fun | .value resource constraints => some (resource, constraints) | _ => none)
      (by
        rintro v ⟨resource, constraints⟩
        cases v <;> simp [eq_comm]),
    variant 1 (nested claim) .authority (fun | .authority claim => some claim | _ => none)]
    34 (by decide)

def bindingTag : Binding → UInt8
  | .value _ => 0
  | .authority _ => 1

def binding : Wire Binding :=
  enum bindingTag
    [variant 0 (nested valueRef) .value (fun | .value source => some source | _ => none),
    variant 1 (nested claimRef) .authority (fun | .authority source => some source | _ => none)]
    6 (by decide)

def MAX_SOCKETS : ℕ := 32

def sockets : Wire (List Socket) := vec (some MAX_SOCKETS) socket (by decide)

def gives : Wire (List ValueRef) := vec (some MAX_SOCKETS) valueRef (by decide)

def wiring : Wire (List Binding) := vec (some MAX_SOCKETS) binding (by decide)

/-- `IntentHeader`; the network is a struct of its own. -/
def intentHeader : Wire IntentHeader :=
  ((nested (nested (uint 1))).seq ((nested (uint 8)).seq ((nested (uint 8)).seq
    (nested (uint 8))))).iso
    { toFun := fun header =>
        (header.network, header.validityStartMs, header.validityEndMs, header.discriminator)
      invFun := fun fields => ⟨fields.1, fields.2.1, fields.2.2.1, fields.2.2.2⟩ }

def MAX_ACCOUNTS : ℕ := 8

def MAX_ATTESTATIONS : ℕ := 8

def principals (cap : ℕ) : Wire (List Address) := vec (some cap) principal (by decide)

structure Attestation where
  scheme : ℕ
  publicKey : Bytes
  signature : Bytes

def MAX_KEY_BYTES : ℕ := 1952

def MAX_SIG_BYTES : ℕ := 3309

def attestation : Wire Attestation :=
  ((nested (uint 2)).seq ((nested (bytes (some MAX_KEY_BYTES))).seq
    (nested (bytes (some MAX_SIG_BYTES))))).iso
    { toFun := fun attestation => (attestation.scheme, attestation.publicKey, attestation.signature)
      invFun := fun fields => ⟨fields.1, fields.2.1, fields.2.2⟩ }

def signatures : Wire (List Attestation) := vec (some MAX_ATTESTATIONS) attestation (by decide)

def units {α : Type} [DecidableEq α] (tagOf : α → UInt8) (all : List α) : Wire α :=
  enum tagOf
    (all.map fun a => variant (tagOf a) Codec.empty (fun _ => a)
      (fun v => if v = a then some () else none)
      (by
        intro v b
        simp [eq_comm])
      (fun _ => rfl))
    1 (fun _ _ => Nat.le_add_right 1 _)

def resourceKind : Wire ResourceKind :=
  units (fun kind => UInt8.ofNat kind.tag) [.fungible, .nonFungible]

def grantedBehaviour : Wire GrantedBehaviour :=
  units (fun behaviour => UInt8.ofNat behaviour.discriminant)
    [.mint, .burn, .withdraw, .deposit, .halt, .recall]

def MAX_CONFIG_BYTES : ℕ := 16 * 1024 - 2 * 32

def config : Wire (List Value) := vec (some MAX_CONFIG_FIELDS) value (by decide)

/-- The configuration's encoding, `none` where it has none or passes its cap. -/
def configBytes (meta_ : InstanceMeta) : Option Bytes :=
  match config.encode DEFAULT_MAX_DEPTH meta_.config with
  | .ok bytes => if MAX_CONFIG_BYTES < bytes.length then none else some bytes
  | .error _ => none

def configurationWithinCap (meta_ : InstanceMeta) : Except DecodeError Unit :=
  if (configBytes meta_).isSome then .ok ()
  else .error (.failedValidation "a configuration encodes past its cap")

def instanceMeta : Wire InstanceMeta :=
  (((nested (digest 32)).seq ((nested config).seq (nested (digest 32)))).iso
    { toFun := fun meta_ => (meta_.package, meta_.config, meta_.salt)
      invFun := fun fields => ⟨fields.1, fields.2.1, fields.2.2⟩ }).check configurationWithinCap

/-- `ResourceMeta` as it is carried: the material and the granted rules as bytes. -/
structure ResourceMeta where
  namespace_ : Address
  kind : ResourceKind
  material : List Bytes
  rules : List (GrantedBehaviour × Bytes)

def MAX_GRANTS : ℕ := 6

def MAX_RESOURCE_MATERIAL_PARTS : ℕ := 4

def MAX_RESOURCE_MATERIAL_BYTES : ℕ := 1 + 2 + MAX_VALUE_BYTES

def ascendingBehaviours (rules : List (GrantedBehaviour × Bytes)) : Except DecodeError Unit :=
  if (rules.map Prod.fst).IsChain (· < ·) then .ok ()
  else .error (.failedValidation "granted behaviours must be ascending and distinct")

def resourceGrants : Wire (List (GrantedBehaviour × Bytes)) :=
  (vec (some MAX_GRANTS) ((nested grantedBehaviour).seq (nested (bytes (some MAX_VALUE_BYTES))))
    (by decide)).check ascendingBehaviours

def material : Wire (List Bytes) :=
  vec (some MAX_RESOURCE_MATERIAL_PARTS) (bytes (some MAX_RESOURCE_MATERIAL_BYTES)) (by decide)

def resourceMeta : Wire ResourceMeta :=
  ((nested address).seq ((nested resourceKind).seq ((nested material).seq
    (nested resourceGrants)))).iso
    { toFun := fun meta_ => (meta_.namespace_, meta_.kind, meta_.material, meta_.rules)
      invFun := fun fields => ⟨fields.1, fields.2.1, fields.2.2.1, fields.2.2.2⟩ }

theorem pair_shallow {α β : Type} {enough : ℕ} {a : Wire α} {b : Wire β} (ha : Shallow enough a)
    (hb : Shallow enough b) : Shallow (enough + 1) ((nested a).seq (nested b)) :=
  (nested_shallow ha).seq (nested_shallow hb)

theorem edgeRef_shallow : Shallow 1 edgeRef := (pair_shallow (uint_shallow 4) (uint_shallow 4)).iso

theorem giveRef_shallow : Shallow 1 giveRef := (pair_shallow (uint_shallow 4) (uint_shallow 4)).iso

theorem constraint_shallow : Shallow 1 constraint := by
  apply enum_shallow
  simp only [forall_mem_cons]
  refine ⟨?_, ?_, ?_, forall_mem_nil _⟩
  · exact variant_shallow (nested_shallow (uint_shallow 16))
  · exact variant_shallow (nested_shallow (uint_shallow 16))
  · exact variant_shallow (nested_shallow (classed_shallow _))

theorem constraints_shallow : Shallow 2 constraints := by
  unfold constraints
  exact vec_shallow constraint_shallow

theorem valueRef_shallow : Shallow 2 valueRef := by
  apply enum_shallow
  simp only [forall_mem_cons]
  refine ⟨?_, ?_, ?_, forall_mem_nil _⟩
  · exact variant_shallow (nested_shallow edgeRef_shallow)
  · exact variant_shallow (nested_shallow giveRef_shallow)
  · exact variant_shallow ((nested_shallow (uint_shallow 4)).mono (by decide))

theorem claimRef_shallow : Shallow 1 claimRef := by
  apply enum_shallow
  simp only [forall_mem_cons]
  refine ⟨?_, ?_, ?_, forall_mem_nil _⟩
  · exact variant_shallow (nested_shallow principal_shallow)
  · exact variant_shallow (nested_shallow (uint_shallow 4))
  · exact variant_shallow (nested_shallow (uint_shallow 4))

theorem evidence_shallow : Shallow 2 evidence := by
  unfold evidence
  exact sequence_shallow claimRef_shallow

theorem socket_shallow : Shallow 3 socket := by
  apply enum_shallow
  simp only [forall_mem_cons]
  refine ⟨?_, ?_, forall_mem_nil _⟩
  · exact variant_shallow (pair_shallow ((classed_shallow _).mono (by decide)) constraints_shallow)
  · exact variant_shallow (nested_shallow claim_shallow)

theorem binding_shallow : Shallow 3 binding := by
  apply enum_shallow
  simp only [forall_mem_cons]
  refine ⟨?_, ?_, forall_mem_nil _⟩
  · exact variant_shallow (nested_shallow valueRef_shallow)
  · exact variant_shallow ((nested_shallow claimRef_shallow).mono (by decide))

theorem sockets_shallow : Shallow 4 sockets := by
  unfold sockets
  exact vec_shallow socket_shallow

theorem gives_shallow : Shallow 3 gives := by
  unfold gives
  exact vec_shallow valueRef_shallow

theorem wiring_shallow : Shallow 4 wiring := by
  unfold wiring
  exact vec_shallow binding_shallow

theorem principals_shallow (cap : ℕ) : Shallow 1 (principals cap) := by
  unfold principals
  exact vec_shallow principal_shallow

theorem intentHeader_shallow : Shallow 2 intentHeader := by
  have hterms : Shallow 1 ((nested (uint 8)).seq ((nested (uint 8)).seq (nested (uint 8)))) :=
    (nested_shallow (uint_shallow 8)).seq (pair_shallow (uint_shallow 8) (uint_shallow 8))
  exact ((nested_shallow (nested_shallow (uint_shallow 1))).seq (hterms.mono (by decide))).iso

theorem attestation_shallow : Shallow 2 attestation :=
  (((nested_shallow (uint_shallow 2)).mono (by decide)).seq
    (pair_shallow (bytes_shallow _) (bytes_shallow _))).iso

theorem signatures_shallow : Shallow 3 signatures := by
  unfold signatures
  exact vec_shallow attestation_shallow

theorem units_shallow {α : Type} [DecidableEq α] (tagOf : α → UInt8) (all : List α) :
    Shallow 0 (units tagOf all) := by
  apply enum_shallow
  intro arm harm
  obtain ⟨a, -, rfl⟩ := mem_map.mp harm
  exact variant_shallow (.flat fun _ _ _ => rfl)

theorem resourceGrants_shallow : Shallow 3 resourceGrants := by
  unfold resourceGrants
  exact (vec_shallow (pair_shallow ((units_shallow _ _).mono (by decide)) (bytes_shallow _))).check

theorem resourceMeta_shallow : Shallow 4 resourceMeta := by
  have hmaterial : Shallow 3 material := by
    unfold material
    exact (vec_shallow (bytes_shallow _)).mono (by decide)
  have hrest : Shallow 4 ((nested material).seq (nested resourceGrants)) :=
    pair_shallow hmaterial resourceGrants_shallow
  have hkind : Shallow 4 (nested resourceKind) :=
    (nested_shallow (units_shallow _ _)).mono (by decide)
  exact (((nested_shallow address_shallow).mono (by decide)).seq (hkind.seq hrest)).iso

def argLevels (other : ℕ) : GraphArg → ℕ
  | .literal v => valueLevels v + 1
  | .value _ _ => other

theorem graphArg_charges {room : ℕ} : Charges room graphArg (argLevels 0) (argLevels 3) := by
  apply enum_charges
  simp only [forall_mem_cons]
  refine ⟨?_, ?_, forall_mem_nil _⟩
  · exact variant_charges (nested_charges fun _ _ => value_charges) fun _ => ⟨le_rfl, le_rfl⟩
  · exact variant_charges (pair_shallow valueRef_shallow constraints_shallow room) fun _ =>
      ⟨le_rfl, le_rfl⟩

end HyperscaleVm.Effects.Wire

import HyperscaleVm.Effects.Wire.Tree

/-!
# Which trees travel

Nested values charge two levels each and composed intents four, so the deepest literal
decides, and at the bottom of both bounds the leaf's own kind does.
-/

namespace HyperscaleVm.Effects.Wire

open Library Hbor Admission List
open Library.Codec (Charges Shallow)

def nodeLevels (node : GraphNode) : ℕ := deepest (argLevels 0) node.args + 2

mutual

def intentLevels (other : ℕ) : Admission.Intent → ℕ
  | .mk _ _ _ nodes _ _ members =>
    max other (max (deepest nodeLevels nodes + 3) (membersLevels other members + 2))

def membersLevels (other : ℕ) : List (Admission.Intent × List Binding) → ℕ
  | [] => 0
  | (intent, _) :: members => max (intentLevels other intent + 2) (membersLevels other members)

end

variable {room : ℕ}

theorem graphNode_charges :
    Charges room graphNode nodeLevels (fun node => max 5 (nodeLevels node)) := by
  have hargs : ∀ room, Charges room args (fun args => deepest (argLevels 0) args + 1)
      (fun args => deepest (argLevels 3) args + 1) := by
    intro room
    unfold args vec
    exact sequence_charges fun _ _ => graphArg_charges
  have hrest := (nested_charges fun below (_ : below < room) => hargs below).seq
    (nested_shallow evidence_shallow room)
  have hnamed := (nested_shallow (string_shallow none) room).seq hrest
  refine ((nested_shallow (classed_shallow _) room).seq hnamed).iso fun node => ?_
  have hother : deepest (argLevels 3) node.args ≤ max 3 (deepest (argLevels 0) node.args) := by
    refine deepest_le.mpr fun arg harg => ?_
    have hle : argLevels 0 arg ≤ deepest (argLevels 0) node.args := le_deepest harg
    cases arg with
    | literal v => exact hle.trans (le_max_right _ _)
    | value source constraints => exact le_max_left _ _
  constructor
  · change deepest (argLevels 0) node.args + 2 ≤
      max 0 (max 0 (max (deepest (argLevels 0) node.args + 1 + 1) 0))
    omega
  · change max (0 + 1) (max (0 + 1) (max (deepest (argLevels 3) node.args + 1 + 1) (2 + 1))) ≤
      max 5 (deepest (argLevels 0) node.args + 2)
    omega

theorem manifestGraph_charges :
    Charges room manifestGraph (fun nodes => deepest nodeLevels nodes + 2)
      (fun nodes => max 7 (deepest nodeLevels nodes + 2)) := by
  unfold manifestGraph vec
  refine (nested_charges fun _ _ => sequence_charges fun _ _ => graphNode_charges).mono
    (fun _ => le_rfl) fun nodes => ?_
  have hother : deepest (fun node => max 5 (nodeLevels node)) nodes ≤
      max 5 (deepest nodeLevels nodes) :=
    deepest_le.mpr fun node hnode => max_le_max le_rfl (le_deepest hnode)
  omega

theorem other_le_intentLevels (other : ℕ) (i : Admission.Intent) :
    other ≤ intentLevels other i := by
  cases i
  exact le_max_left _ _

theorem membersLevels_unsigned (other : ℕ) (members : List Member) :
    membersLevels other (unsignedMembers members) =
      deepest (fun m : Member => intentLevels other m.1.unsigned + 2) members := by
  induction members with
  | nil => rfl
  | cons m members ih =>
    obtain ⟨i, attestations, wiring⟩ := m
    rw [unsignedMembers, membersLevels, deepest, ih]

theorem member_charges {c : Wire Intent}
    (hbelow : ∀ below < room, Charges below c (fun i => intentLevels 0 i.unsigned)
      (fun i => intentLevels 8 i.unsigned)) :
    Charges room (member c) (fun m => intentLevels 0 m.1.unsigned + 2)
      (fun m => intentLevels 8 m.1.unsigned + 2) := by
  have hsigned : ∀ below < room, Charges below ((nested c).seq (nested signatures))
      (fun v => max (intentLevels 0 v.1.unsigned + 1) 0)
      (fun v => max (intentLevels 8 v.1.unsigned + 1) 4) := fun below hlt =>
    (nested_charges fun lower hlower => hbelow lower (hlower.trans hlt)).seq
      (nested_shallow signatures_shallow below)
  refine ((nested_charges hsigned).seq (nested_shallow wiring_shallow room)).iso fun m => ?_
  have hother := other_le_intentLevels 8 m.1.unsigned
  constructor
  · change intentLevels 0 m.1.unsigned + 2 ≤ max (max (intentLevels 0 m.1.unsigned + 1) 0 + 1) 0
    omega
  · change max (max (intentLevels 8 m.1.unsigned + 1) 4 + 1) 5 ≤ intentLevels 8 m.1.unsigned + 2
    omega

theorem intent_charges :
    Charges room intent (fun i => intentLevels 0 i.unsigned)
      (fun i => intentLevels 8 i.unsigned) := by
  apply Charges.fix
  intro room c h hbelow
  have hwidth : 0 < (member c).width := by
    change 0 < c.width + 1 + 1
    omega
  have hmembers : Charges room (nested (vec (some MAX_INTENTS) (member c) hwidth))
      (fun members => deepest (fun m : Member => intentLevels 0 m.1.unsigned + 2) members + 1 + 1)
      (fun members =>
        deepest (fun m : Member => intentLevels 8 m.1.unsigned + 2) members + 1 + 1) :=
    nested_charges fun below hlt => sequence_charges fun lower hlower =>
      member_charges fun least hleast => hbelow least (hleast.trans (hlower.trans hlt))
  have hgives := (nested_shallow gives_shallow room).seq hmembers
  have hsockets := (nested_shallow sockets_shallow room).seq hgives
  have hgraph := (nested_charges fun _ (_ : _ < room) => manifestGraph_charges).seq hsockets
  have hattested := (nested_shallow (principals_shallow MAX_ATTESTATIONS) room).seq hgraph
  have haccounts := (nested_shallow (principals_shallow MAX_ACCOUNTS) room).seq hattested
  refine ((nested_shallow intentHeader_shallow room).seq haccounts).iso fun i => ?_
  obtain ⟨header, accounts, attestedBy, nodes, sockets, gives, members⟩ := i
  have hlo := membersLevels_unsigned 0 members
  have hhi := membersLevels_unsigned 8 members
  simp only [Intent.unsigned, intentLevels, hlo, hhi]
  simp only [intentEquiv, Equiv.coe_fn_mk]
  generalize deepest (fun m : Member => intentLevels 0 m.1.unsigned + 2) members = least
  generalize deepest (fun m : Member => intentLevels 8 m.1.unsigned + 2) members = most
  generalize deepest nodeLevels nodes = literal
  constructor <;> omega

def recordLevels (record : InstanceMeta) : ℕ := deepest valueLevels record.config + 2

theorem instanceMeta_charges :
    Charges room instanceMeta (fun _ => 0) (fun record => max 1 (recordLevels record)) := by
  have hconfig : ∀ room, Charges room config (fun config => deepest valueLevels config + 1)
      (fun config => deepest valueLevels config + 1) := by
    intro room
    unfold config vec
    exact sequence_charges fun _ _ => value_charges
  have hsalted := (nested_charges fun below (_ : below < room) => hconfig below).seq
    (nested_shallow (digest_shallow 32) room)
  refine Charges.check
    (((nested_shallow (digest_shallow 32) room).seq hsalted).iso fun record => ?_)
  refine ⟨Nat.zero_le _, ?_⟩
  change max (0 + 1) (max (deepest valueLevels record.config + 1 + 1) (0 + 1)) ≤
    max 1 (deepest valueLevels record.config + 2)
  omega

theorem intentTree_charges :
    Charges room intentTree (fun tree => intentLevels 0 tree.root.unsigned + 1) (fun tree =>
      max (intentLevels 8 tree.root.unsigned + 1)
        (max 6 (deepest recordLevels tree.instances + 2))) := by
  have hinstances : ∀ hwidth, Charges room
      (nested (vec (some MAX_MANIFEST_NODES) instanceMeta hwidth)) (fun _ => 0)
      (fun records => max 3 (deepest recordLevels records + 2)) := by
    intro hwidth
    unfold vec
    refine (nested_charges fun _ _ => sequence_charges fun _ _ => instanceMeta_charges).mono
      (fun _ => Nat.zero_le _) fun records => ?_
    have hother : deepest (fun record => max 1 (recordLevels record)) records ≤
        max 1 (deepest recordLevels records) :=
      deepest_le.mpr fun record hrecord => max_le_max le_rfl (le_deepest hrecord)
    omega
  have hresources : ∀ hwidth, Shallow 6
      (nested (vec (some MAX_MANIFEST_NODES) resourceMeta hwidth)) := fun _ =>
    nested_shallow (vec_shallow resourceMeta_shallow)
  unfold intentTree
  refine ((nested_charges fun _ _ => intent_charges).seq
    ((hinstances _).seq (hresources _ room))).iso fun tree => ?_
  simp only [Equiv.coe_fn_mk]
  constructor <;> omega

def heavy : Value → Bool
  | .bytes _ | .key _ | .tuple .nil | .list .nil | .bucket _ (.nonFungible _) => true
  | _ => false

mutual

def heavyAt : ℕ → Value → Bool
  | 1, v => heavy v
  | depth + 2, .tuple vs | depth + 2, .list vs => heavyAmong (depth + 1) vs
  | _, _ => false

def heavyAmong : ℕ → Values → Bool
  | _, .nil => false
  | depth, .cons v vs => heavyAt depth v || heavyAmong depth vs

end

theorem leaf_heavy {v : Value} (h : isLeaf v = true) :
    (valueLevels v ≤ 1 ↔ heavy v = false) ∧
      ∀ depth, heavyAt (depth + 2) v = false := by
  cases v with
  | tuple | list => cases h
  | bucket resource content =>
    cases content <;> simp [valueLevels, contentLevels, heavy, heavyAt]
  | _ => simp [valueLevels, heavy, heavyAt]

theorem values_nil_of_depth {vs : Values} (h : vs.depth = 0) : vs = .nil := by
  cases vs with
  | nil => rfl
  | cons v vs =>
    have hpos := depth_pos v
    rw [Values.depth] at h
    omega

theorem levels_iff_heavyAt : NestedCases (fun v => ∀ depth, v.depth ≤ depth + 1 →
      (valueLevels v ≤ 2 * depth + 1 ↔ heavyAt (depth + 1) v = false))
    (fun vs => ∀ depth, vs.depth ≤ depth + 1 →
      (valuesLevels vs ≤ 2 * depth + 1 ↔ heavyAmong (depth + 1) vs = false)) := by
  constructor
  · intro v hleaf depth hdepth
    have hmost := leaf_levels hleaf
    obtain ⟨hone, hlower⟩ := leaf_heavy hleaf
    cases depth with
    | zero =>
      rw [heavyAt]
      exact hone
    | succ depth =>
      have hfits : valueLevels v ≤ 2 * (depth + 1) + 1 := by omega
      exact ⟨fun _ => hlower depth, fun _ => hfits⟩
  case tuple | list =>
    intro vs ih depth hdepth
    rw [Value.depth] at hdepth
    cases depth with
    | zero =>
      obtain rfl := values_nil_of_depth (show vs.depth = 0 by omega)
      simp [valueLevels, valuesLevels, heavyAt, heavy]
    | succ depth =>
      rw [heavyAt, ← ih depth (by omega), valueLevels]
      omega
  · simp [valuesLevels, heavyAmong]
  · intro v vs ihv ihvs depth hdepth
    rw [Values.depth] at hdepth
    rw [valuesLevels, heavyAmong, Bool.or_eq_false_iff, ← ihv depth (by omega),
      ← ihvs depth (by omega)]
    omega

mutual

theorem intentLevels_le (other bound : ℕ) : (i : Admission.Intent) → ∀ (at_ depth : ℕ)
    (composer : Option (ℕ × ℕ)), intentLevels other i + 4 * depth ≤ bound ↔
      ∀ visit ∈ i.visits at_ depth composer,
        max other (deepest nodeLevels visit.intent.nodes + 3) + 4 * visit.depth ≤ bound
  | .mk header accounts attestedBy nodes sockets gives members, at_, depth, composer => by
    have hmembers := membersLevels_le other bound members (at_ + 1) depth at_ 0
    rw [Admission.Intent.visits, forall_mem_cons, intentLevels]
    change _ ↔ max other (deepest nodeLevels nodes + 3) + 4 * depth ≤ bound ∧ _
    by_cases hown : max other (deepest nodeLevels nodes + 3) + 4 * depth ≤ bound
    · rw [← hmembers (by omega)]
      omega
    constructor
    · intro h
      omega
    · intro h
      exact absurd h.1 hown

theorem membersLevels_le (other bound : ℕ) : (members : List (Admission.Intent × List Binding)) →
    ∀ (next depth composer position : ℕ), 4 * depth + 2 ≤ bound →
      (membersLevels other members + 2 + 4 * depth ≤ bound ↔
        ∀ visit ∈ memberVisits next (depth + 1) composer position members,
          max other (deepest nodeLevels visit.intent.nodes + 3) + 4 * visit.depth ≤ bound)
  | [], next, depth, composer, position, h => by
    simp only [membersLevels, memberVisits, not_mem_nil, false_implies, implies_true, iff_true]
    omega
  | (i, bindings) :: members, next, depth, composer, position, h => by
    have hhead := intentLevels_le other bound i next (depth + 1) (some (composer, position))
    have htail := membersLevels_le other bound members
      (next + (i.visits next (depth + 1) (some (composer, position))).length) depth composer
      (position + 1) h
    rw [memberVisits, forall_mem_append, ← hhead, ← htail, membersLevels]
    omega

end

structure Shaped (tree : IntentTree) : Prop where
  depth : ∀ visit ∈ tree.root.unsigned.visits 0 1 none, visit.depth ≤ MAX_TREE_DEPTH
  literal : ∀ visit ∈ tree.root.unsigned.visits 0 1 none, ∀ node ∈ visit.intent.nodes,
    ∀ v, .literal v ∈ node.args → v.depth ≤ MAX_VALUE_DEPTH
  config : ∀ record ∈ tree.instances, ∀ v ∈ record.config, v.depth ≤ MAX_VALUE_DEPTH

theorem flatten_depth {root : Admission.Intent} {flat : Flattened} (h : flatten root = .ok flat) :
    ∀ visit ∈ root.visits 0 1 none, visit.depth ≤ MAX_TREE_DEPTH := by
  obtain ⟨rfl, -, hintents⟩ := flatten_ok h
  intro visit hvisit
  obtain ⟨at_, hat⟩ := mem_iff_getElem?.mp hvisit
  have hintent : (walk root).intents[at_]? = some visit.intent := by simp [walk, hat]
  have hdepth : (walk root).depth[at_]? = some visit.depth := by simp [walk, hat]
  obtain ⟨hwithin, -⟩ := seq_ok.mp (tryIndexed_ok.mp hintents at_ _ hintent)
  rw [require_ok, decide_eq_true_iff, hdepth] at hwithin
  exact hwithin

variable {tree : IntentTree}

theorem shaped_of_checkShape (h : checkShape tree = .ok ()) : Shaped tree := by
  obtain ⟨flat, hflat, h⟩ := bind_ok.mp h
  obtain ⟨hvalues, hrecords⟩ := seq_ok.mp h
  have hdepth := flatten_depth hflat
  obtain rfl := (flatten_ok hflat).1
  refine ⟨hdepth, fun visit hvisit => ?_, configs_within hrecords⟩
  have hmem : visit.intent ∈ (walk tree.root.unsigned).intents := mem_map_of_mem hvisit
  exact literals_within (tryAll_ok.mp hvalues _ hmem)

/-- No literal of an intent at the greatest tree depth ends, at the greatest value depth, in a
leaf of more than one level. -/
def LightAtTheBottom (tree : IntentTree) : Prop :=
  ∀ visit ∈ tree.root.unsigned.visits 0 1 none, visit.depth = MAX_TREE_DEPTH →
    ∀ node ∈ visit.intent.nodes, ∀ v, .literal v ∈ node.args → heavyAt MAX_VALUE_DEPTH v = false

theorem nodes_fit_iff {nodes : List GraphNode} {bound : ℕ} :
    deepest nodeLevels nodes + 3 ≤ bound + 6 ↔
      ∀ node ∈ nodes, ∀ v, .literal v ∈ node.args → valueLevels v ≤ bound := by
  have hnode : ∀ node, nodeLevels node ≤ bound + 3 ↔
      ∀ v, .literal v ∈ node.args → valueLevels v ≤ bound := by
    intro node
    have hargs : nodeLevels node ≤ bound + 3 ↔ ∀ arg ∈ node.args, argLevels 0 arg ≤ bound + 1 := by
      rw [← deepest_le, nodeLevels]
      omega
    rw [hargs]
    constructor
    · intro h v hv
      exact Nat.le_of_succ_le_succ (h (.literal v) hv)
    · intro h arg harg
      cases arg with
      | literal v => exact Nat.succ_le_succ (h v harg)
      | value source constraints => exact Nat.zero_le _
  have hnodes : deepest nodeLevels nodes + 3 ≤ bound + 6 ↔ ∀ node ∈ nodes,
      nodeLevels node ≤ bound + 3 := by
    rw [← deepest_le]
    omega
  rw [hnodes]
  exact forall₂_congr fun node _ => hnode node

theorem root_fits_iff (hs : Shaped tree) {other : ℕ} (hother : other ≤ 8) :
    intentLevels other tree.root.unsigned + 1 ≤ TREE_WIRE_DEPTH ↔ LightAtTheBottom tree := by
  have hbound : intentLevels other tree.root.unsigned + 1 ≤ TREE_WIRE_DEPTH ↔
      intentLevels other tree.root.unsigned + 4 * 1 ≤ 69 := by
    have hdepth : TREE_WIRE_DEPTH = 66 := rfl
    omega
  rw [hbound, intentLevels_le other 69 _ 0 1 none]
  refine forall₂_congr fun visit hvisit => ?_
  have hdepth : visit.depth ≤ 8 := hs.depth visit hvisit
  have hliteral := hs.literal visit hvisit
  have hmost : ∀ node ∈ visit.intent.nodes, ∀ v, .literal v ∈ node.args → valueLevels v ≤ 33 :=
    fun node hnode v hv => valueLevels_le.value v 16 (hliteral node hnode v hv)
  by_cases hbottom : visit.depth = 8
  · have hfit : max other (deepest nodeLevels visit.intent.nodes + 3) + 4 * visit.depth ≤ 69 ↔
        deepest nodeLevels visit.intent.nodes + 3 ≤ 31 + 6 := by omega
    rw [hfit, nodes_fit_iff]
    have hiff := fun node hnode v hv => levels_iff_heavyAt.value v 15 (hliteral node hnode v hv)
    constructor
    · intro h _ node hnode v hv
      exact (hiff node hnode v hv).mp (h node hnode v hv)
    · intro h node hnode v hv
      exact (hiff node hnode v hv).mpr (h hbottom node hnode v hv)
  · have hroom := nodes_fit_iff.mpr hmost
    constructor
    · intro _ h
      exact absurd h hbottom
    · intro _
      omega

def Travels (tree : IntentTree) : Prop :=
  ∃ bytes, encodeTree tree = .ok bytes ∧ decodeTree bytes = .ok tree

theorem encodeTree_iff (hs : Shaped tree)
    (hwritten : ∃ room bytes, intentTree.encode room tree = .ok bytes) :
    (∃ bytes, encodeTree tree = .ok bytes) ↔ LightAtTheBottom tree := by
  constructor
  · rintro ⟨bytes, hbytes⟩
    exact (root_fits_iff hs (Nat.zero_le _)).mp (intentTree_charges _ _ hbytes).1
  · intro hlight
    obtain ⟨room, bytes, hbytes⟩ := hwritten
    refine (intentTree_charges _ _ hbytes).2 TREE_WIRE_DEPTH ?_
    have hroot := (root_fits_iff hs le_rfl).mpr hlight
    have hrecords : deepest recordLevels tree.instances ≤ 35 := by
      refine deepest_le.mpr fun record hrecord => ?_
      have hconfig : deepest valueLevels record.config ≤ 33 :=
        deepest_le.mpr fun v hv => valueLevels_le.value v 16 (hs.config record hrecord v hv)
      rw [recordLevels]
      omega
    have hdepth : TREE_WIRE_DEPTH = 66 := rfl
    dsimp only
    omega

theorem decodeTree_ok {bytes : Bytes} : decodeTree bytes = .ok tree ↔
      intentTree.valid tree ∧ encodeTree tree = .ok bytes ∧ checkShape tree = .ok () := by
  constructor
  · intro h
    obtain ⟨tree', hread, h⟩ := bind_ok.mp h
    obtain ⟨hshape, h⟩ := seq_ok.mp h
    cases h
    obtain ⟨hvalid, hwritten⟩ := fromSliceWithDepth_ok.mp (mapError_ok.mp hread)
    exact ⟨hvalid, hwritten, mapError_ok.mp hshape⟩
  · rintro ⟨hvalid, hwritten, hshape⟩
    exact bind_ok.mpr ⟨tree, mapError_ok.mpr (fromSliceWithDepth_ok.mpr ⟨hvalid, hwritten⟩),
      seq_ok.mpr ⟨mapError_ok.mpr hshape, rfl⟩⟩

/-- A tree of its shape that its own codecs admit travels exactly where it is light at the
bottom, and what is read back is what was written. -/
theorem tree_travels_iff_light (tree : IntentTree) :
    (checkShape tree = .ok () → intentTree.valid tree →
      (∃ room bytes, intentTree.encode room tree = .ok bytes) →
      (Travels tree ↔ LightAtTheBottom tree)) ∧
    ∀ bytes, decodeTree bytes = .ok tree → encodeTree tree = .ok bytes := by
  refine ⟨fun hshape hvalid hwritten => ?_, fun bytes h => (decodeTree_ok.mp h).2.1⟩
  rw [← encodeTree_iff (shaped_of_checkShape hshape) hwritten]
  constructor
  · rintro ⟨bytes, hbytes, -⟩
    exact ⟨bytes, hbytes⟩
  · rintro ⟨bytes, hbytes⟩
    exact ⟨bytes, hbytes, decodeTree_ok.mpr ⟨hvalid, hbytes, hshape⟩⟩

def someone : Address := ⟨7, .principal⟩

def listed : ℕ → Value → Value
  | 0, v => v
  | n + 1, v => .list (.cons (listed n v) .nil)

def calling (v : Value) : GraphNode := ⟨⟨someone, rfl⟩, "f", [.literal v], []⟩

def composed : ℕ → List GraphNode → Intent
  | 0, nodes => .mk ⟨0, 0, 1, 0⟩ [someone] [someone] nodes [] [] []
  | n + 1, nodes => .mk ⟨0, 0, 1, 0⟩ [someone] [someone] [] [] [] [(composed n nodes, [], [])]

def bottomed (leaf : Value) : IntentTree := ⟨composed 7 [calling (listed 15 leaf)], [], []⟩

/-- The deepest tree of its shape is not written if its deepest leaf is a byte string. -/
theorem bottom_bytes_do_not_travel :
    checkShape (bottomed (.bytes [])) = .ok () ∧ intentTree.valid (bottomed (.bytes [])) ∧
      (∃ room bytes, intentTree.encode room (bottomed (.bytes [])) = .ok bytes) ∧
      encodeTree (bottomed (.bytes [])) = .error .depthExceeded := by
  have hshape : passes (checkShape (bottomed (.bytes []))) (fun _ => true) = true := by
    decide +kernel
  have hback : intentTree.readsBack 67 (bottomed (.bytes [])) = true := by decide +kernel
  obtain ⟨_, hok, -⟩ := passes_iff.mp hshape
  obtain ⟨hvalid, hwritten⟩ := Codec.valid_of_readsBack hback
  exact ⟨hok, hvalid, ⟨67, hwritten⟩, by decide +kernel⟩

/-- It travels if its deepest leaf is a number. -/
theorem bottom_number_travels : Travels (bottomed (.u64 5)) := by
  have hshape : passes (checkShape (bottomed (.u64 5))) (fun _ => true) = true := by decide +kernel
  have hback : intentTree.readsBack 66 (bottomed (.u64 5)) = true := by decide +kernel
  obtain ⟨_, hok, -⟩ := passes_iff.mp hshape
  obtain ⟨hvalid, hwritten⟩ := Codec.valid_of_readsBack hback
  refine ((tree_travels_iff_light (bottomed (.u64 5))).1 hok hvalid ⟨66, hwritten⟩).mpr ?_
  exact (encodeTree_iff (shaped_of_checkShape hok) ⟨66, hwritten⟩).mp hwritten

end HyperscaleVm.Effects.Wire

import HyperscaleVm.Effects.Wire.Identity

/-!
# A hash is what was signed

Two intents hash alike exactly if they agree short of the attestations their members
travel under, and a tree's own hash adds its records.
-/

namespace HyperscaleVm.Effects.Wire

open Library Hbor Admission List
open Library.Codec (Charges Shallow Written)

mutual

def Intent.intents : Intent → List Intent
  | .mk header accounts attestedBy nodes sockets gives members =>
    .mk header accounts attestedBy nodes sockets gives members :: memberIntents members

def memberIntents : List Member → List Intent
  | [] => []
  | (i, _, _) :: members => i.intents ++ memberIntents members

end

def IntentTree.intents (tree : IntentTree) : List Intent := tree.root.intents

def IntentTree.hashes (H : Hbor.Hasher) (tree : IntentTree) : Option (List Hash32) :=
  Flattened.hashes H (walk tree.root.unsigned)

mutual

theorem intents_unsigned : (i : Intent) → (at_ depth : ℕ) → (composer : Option (ℕ × ℕ)) →
    (i.unsigned.visits at_ depth composer).map Visit.intent = i.intents.map Intent.unsigned
  | .mk header accounts attestedBy nodes sockets gives members, at_, depth, composer => by
    rw [Intent.unsigned, Admission.Intent.visits, Intent.intents, map_cons, map_cons,
      memberIntents_unsigned members]
    rfl

theorem memberIntents_unsigned : (members : List Member) → (next depth composer position : ℕ) →
    (memberVisits next depth composer position (unsignedMembers members)).map Visit.intent =
      (memberIntents members).map Intent.unsigned
  | [], _, _, _, _ => rfl
  | (i, _, _) :: members, next, depth, composer, position => by
    rw [unsignedMembers, memberVisits, memberIntents, map_append, map_append, intents_unsigned i,
      memberIntents_unsigned members]

end

theorem walk_unsigned (i : Intent) : (walk i.unsigned).intents = i.intents.map Intent.unsigned :=
  intents_unsigned i 0 1 none

theorem hashes_each (H : Hbor.Hasher) (tree : IntentTree) :
    tree.hashes H = tree.intents.mapM (Intent.hash H) := by
  rw [IntentTree.hashes, hashes_mapM, walk_unsigned, mapM_map]
  exact mapM_congr fun i _ => (hash_unsigned H i).symm

def depthGate (i : Intent) : Except AdmissionError Unit :=
  tryAll (fun intent => checkValueDepth intent.nodes) (walk i.unsigned).intents

section Total

variable {α β : Type} {H : Hbor.Hasher}

theorem toVec_total {c : Wire α} {lo hi : α → ℕ} (h : ∀ room, Charges room c lo hi) {v : α}
    (hwritten : Written c v) (hroom : hi v ≤ DEFAULT_MAX_DEPTH) :
    ∃ bytes, toVec c v = some bytes := by
  obtain ⟨bytes, hbytes⟩ := Charges.written h hwritten hroom
  refine ⟨bytes, ?_⟩
  rw [toVec, hbytes]
  rfl

theorem count_total {length : ℕ} (h : length ≤ MAX_LENGTH) :
    ∃ bytes, count length = some bytes := by
  have hbound : length < 2 ^ 32 := h.trans_lt (by decide)
  exact ⟨_, if_pos hbound⟩

theorem nodeInput_total {node : GraphNode} (h : Written graphNode node)
    (hdepth : ∀ v, .literal v ∈ node.args → v.depth ≤ MAX_VALUE_DEPTH) :
    ∃ input, nodeInput node = some input := by
  obtain ⟨htarget, hrest⟩ := h.iso.seq
  obtain ⟨-, hrest⟩ := hrest.seq
  obtain ⟨hargs, hevidence⟩ := hrest.seq
  obtain ⟨target, htarget⟩ : ∃ bytes, toVec callTarget node.target = some bytes :=
    toVec_total (classed_shallow _) htarget.descend (by decide)
  obtain ⟨evidence, hevidence⟩ : ∃ bytes, toVec Wire.evidence node.evidence = some bytes :=
    toVec_total evidence_shallow hevidence.descend (by decide)
  have hargsEach := (sequence_written (by decide) hargs.descend).2
  obtain ⟨args, hargs⟩ : ∃ args, node.args.mapM (toVec graphArg) = some args := by
    refine mapM_total fun arg harg => ?_
    refine toVec_total (fun _ => graphArg_charges) (hargsEach arg harg) ?_
    cases arg with
    | literal v =>
      have hlevels := valueLevels_le.value v MAX_VALUE_DEPTH (hdepth v harg)
      change valueLevels v + 1 ≤ 64
      change valueLevels v ≤ 2 * 16 + 1 at hlevels
      omega
    | value source constraints =>
      change 3 ≤ 64
      decide
  rw [nodeInput, htarget, hargs, hevidence]
  exact ⟨_, rfl⟩

theorem graphInput_total {nodes : List GraphNode} (h : Written manifestGraph nodes)
    (hdepth : checkValueDepth nodes = .ok ()) : ∃ input, graphInput H nodes = some input := by
  have hnodes := (sequence_written (by decide) h.descend).2
  obtain ⟨inputs, hinputs⟩ : ∃ inputs, nodes.mapM nodeInput = some inputs :=
    mapM_total fun node hnode =>
      nodeInput_total (hnodes node hnode) (literals_within hdepth node hnode)
  rw [graphInput, hinputs]
  exact ⟨_, rfl⟩

structure WrittenFields (i : Intent) : Prop where
  header : Written intentHeader i.unsigned.header
  accounts : Written (principals MAX_ACCOUNTS) i.unsigned.accounts
  attestedBy : Written (principals MAX_ATTESTATIONS) i.unsigned.attestedBy
  nodes : Written manifestGraph i.unsigned.nodes
  sockets : Written sockets i.unsigned.sockets
  gives : Written gives i.unsigned.gives
  wirings : ∀ member ∈ i.unsigned.members, Written wiring member.2
  counted : i.unsigned.members.length ≤ MAX_LENGTH

theorem unsignedMembers_map (members : List Member) :
    unsignedMembers members = members.map fun member => (member.1.unsigned, member.2.2) := by
  induction members with
  | nil => rfl
  | cons member members ih =>
    obtain ⟨i, signatures, wiring⟩ := member
    rw [unsignedMembers, ih]
    rfl

theorem written_fields {header : IntentHeader} {accounts attestedBy : List Address}
    {nodes : List GraphNode} {sockets : List Socket} {gives : List ValueRef} {members : List Member}
    (h : Written intent (.mk header accounts attestedBy nodes sockets gives members)) :
    WrittenFields (.mk header accounts attestedBy nodes sockets gives members) ∧
      ∀ member ∈ members, Written intent member.1 := by
  obtain ⟨hheader, hrest⟩ := h.fix.iso.seq
  obtain ⟨haccounts, hrest⟩ := hrest.seq
  obtain ⟨hattestedBy, hrest⟩ := hrest.seq
  obtain ⟨hnodes, hrest⟩ := hrest.seq
  obtain ⟨hsockets, hrest⟩ := hrest.seq
  obtain ⟨hgives, hmembers⟩ := hrest.seq
  obtain ⟨hcounted, hmembers⟩ := sequence_written (Nat.succ_pos _) hmembers.descend
  have hsplit : ∀ member ∈ members, Written intent member.1 ∧ Written wiring member.2.2 := by
    intro member hmember
    obtain ⟨hsigned, hwiring⟩ := (hmembers member hmember).iso.seq
    exact ⟨hsigned.descend.seq.1.descend, hwiring.descend⟩
  refine ⟨⟨hheader.descend, haccounts.descend, hattestedBy.descend, hnodes.descend,
    hsockets.descend, hgives.descend, ?_, ?_⟩, fun member hmember => (hsplit member hmember).1⟩
  · rw [Intent.unsigned, Admission.Intent.members, unsignedMembers_map]
    intro member hmember
    obtain ⟨signed, hsigned, rfl⟩ := mem_map.mp hmember
    exact (hsplit signed hsigned).2
  · rw [Intent.unsigned, Admission.Intent.members, unsignedMembers_map, length_map]
    exact hcounted

theorem hashOver_total {i : Intent} {hashes : List Hash32} (h : WrittenFields i)
    (hdepth : checkValueDepth i.unsigned.nodes = .ok ())
    (hcount : hashes.length = i.unsigned.members.length) :
    ∃ hash, hashOver H hashes i.unsigned = some hash := by
  obtain ⟨graph, hgraph⟩ := graphInput_total (H := H) h.nodes hdepth
  obtain ⟨header, hheader⟩ := toVec_total intentHeader_shallow h.header (by decide)
  obtain ⟨accounts, haccounts⟩ := toVec_total (principals_shallow _) h.accounts (by decide)
  obtain ⟨attestedBy, hattestedBy⟩ := toVec_total (principals_shallow _) h.attestedBy (by decide)
  obtain ⟨hsocketLength, hsocketsEach⟩ := sequence_written (by decide) h.sockets
  obtain ⟨hgiveLength, hgivesEach⟩ := sequence_written (by decide) h.gives
  obtain ⟨socketCount, hsocketCount⟩ := count_total hsocketLength
  obtain ⟨giveCount, hgiveCount⟩ := count_total hgiveLength
  obtain ⟨memberCount, hmemberCount⟩ := count_total h.counted
  obtain ⟨sockets, hsockets⟩ : ∃ sockets, i.unsigned.sockets.mapM (toVec socket) = some sockets :=
    mapM_total fun s hs => toVec_total socket_shallow (hsocketsEach s hs) (by decide)
  obtain ⟨gives, hgives⟩ : ∃ gives, i.unsigned.gives.mapM (toVec valueRef) = some gives :=
    mapM_total fun g hg => toVec_total valueRef_shallow (hgivesEach g hg) (by decide)
  obtain ⟨wirings, hwirings⟩ : ∃ wirings,
      i.unsigned.members.mapM (fun member => toVec wiring member.2) = some wirings :=
    mapM_total fun member hmember =>
      toVec_total wiring_shallow (h.wirings member hmember) (by decide)
  rw [hashOver, intentInput, guard, if_pos hcount, hgraph, hheader, haccounts, hattestedBy,
    hsocketCount, hsockets, hgiveCount, hgives, hmemberCount, hwirings]
  exact ⟨_, rfl⟩

mutual

theorem hash_total : (i : Intent) → Written intent i →
    (∀ j ∈ i.intents, checkValueDepth j.unsigned.nodes = .ok ()) → ∃ hash, i.hash H = some hash
  | .mk header accounts attestedBy nodes sockets gives members, hwritten, hdepth => by
    obtain ⟨hfields, hmembers⟩ := written_fields hwritten
    rw [Intent.intents, forall_mem_cons] at hdepth
    obtain ⟨hashes, hhashes, hlength⟩ := memberHashes_total members hmembers hdepth.2
    have hcount : hashes.length =
        (Intent.mk header accounts attestedBy nodes sockets gives
          members).unsigned.members.length := by
      rw [Intent.unsigned, Admission.Intent.members, unsignedMembers_map, length_map, hlength]
    obtain ⟨hash, hhash⟩ := hashOver_total hfields hdepth.1 hcount
    refine ⟨hash, ?_⟩
    rw [Intent.hash, hhashes]
    exact hhash

theorem memberHashes_total : (members : List Member) →
    (∀ member ∈ members, Written intent member.1) →
    (∀ j ∈ memberIntents members, checkValueDepth j.unsigned.nodes = .ok ()) →
    ∃ hashes, memberHashes H members = some hashes ∧ hashes.length = members.length
  | [], _, _ => ⟨[], rfl, rfl⟩
  | (i, signatures, placed) :: members, hwritten, hdepth => by
    rw [memberIntents, forall_mem_append] at hdepth
    have hi : Written intent i := hwritten (i, signatures, placed) mem_cons_self
    obtain ⟨hash, hhash⟩ := hash_total i hi hdepth.1
    obtain ⟨hashes, hhashes, hlength⟩ := memberHashes_total members
      (fun member hmember => hwritten member (mem_cons_of_mem _ hmember)) hdepth.2
    refine ⟨hash :: hashes, ?_, congrArg (· + 1) hlength⟩
    rw [memberHashes, hhash, hhashes]
    rfl

end

end Total

theorem gated_each {i : Intent} (h : depthGate i = .ok ()) :
    ∀ j ∈ i.intents, checkValueDepth j.unsigned.nodes = .ok () := by
  intro j hj
  have hmem : j.unsigned ∈ (walk i.unsigned).intents := by
    rw [walk_unsigned]
    exact mem_map_of_mem hj
  exact tryAll_ok.mp h j.unsigned hmem

section Trees

variable {H : Hbor.Hasher}

theorem treeInput_total {tree : IntentTree} (h : Written intentTree tree)
    (hgate : depthGate tree.root = .ok ())
    (hrecords : checkInstanceRecords configBytes tree.instances = .ok ()) :
    ∃ input, treeInput H tree = some input := by
  obtain ⟨hroot, hrest⟩ := h.iso.seq
  obtain ⟨hinstances, hresources⟩ := hrest.seq
  obtain ⟨root, hroot⟩ : ∃ root, tree.root.hash H = some root :=
    hash_total tree.root hroot.descend (gated_each hgate)
  obtain ⟨instances, hinstances⟩ : ∃ bytes,
      toVec (vec (some MAX_MANIFEST_NODES) instanceMeta (by decide)) tree.instances =
        some bytes := by
    refine toVec_total (fun _ => sequence_charges fun _ _ => instanceMeta_charges)
      hinstances.descend ?_
    have hlevels : ∀ record ∈ tree.instances, max 1 (recordLevels record) ≤ 2 * 16 + 3 := by
      intro record hrecord
      have hvalues : deepest valueLevels record.config ≤ 2 * 16 + 1 :=
        deepest_le.mpr fun v hv =>
          valueLevels_le.value v 16 (configs_within hrecords record hrecord v hv)
      rw [recordLevels]
      omega
    exact Nat.le_trans (Nat.succ_le_succ (deepest_le.mpr hlevels)) (by decide)
  obtain ⟨resources, hresources⟩ : ∃ bytes,
      toVec (vec (some MAX_MANIFEST_NODES) resourceMeta (by decide)) tree.resources = some bytes :=
    toVec_total (vec_shallow resourceMeta_shallow) hresources.descend (by decide)
  rw [treeInput, hroot, hinstances, hresources]
  exact ⟨_, rfl⟩

def treeInputs (H : Hbor.Hasher) (tree : IntentTree) : List HashInput :=
  hashInputs H tree.root.unsigned ++ (treeInput H tree).toList

theorem treeInput_inj {a b : IntentTree} {inputs : List HashInput} (hsep : H.Separates inputs)
    (hina : treeInputs H a ⊆ inputs) (hinb : treeInputs H b ⊆ inputs) {inputa inputb : HashInput}
    (ha : treeInput H a = some inputa) (hb : treeInput H b = some inputb)
    (hsame : H.hash inputa = H.hash inputb) :
    a.root.unsigned = b.root.unsigned ∧ a.instances = b.instances ∧ a.resources = b.resources := by
  rw [treeInputs, append_subset, ha] at hina
  rw [treeInputs, append_subset, hb] at hinb
  obtain rfl := hsep inputa (hina.2 (mem_singleton_self _)) inputb
    (hinb.2 (mem_singleton_self _)) hsame
  simp only [treeInput, Option.bind_eq_bind, Option.bind_eq_some_iff] at ha hb
  obtain ⟨root, hroot, instances, hinstances, resources, hresources, ha⟩ := ha
  obtain ⟨root', hroot', instances', hinstances', resources', hresources', hb⟩ := hb
  cases ha
  have hparts := congrArg HashInput.parts (Option.some.inj hb)
  simp only [List.cons.injEq, and_true] at hparts
  obtain ⟨hroots, rfl, rfl⟩ := hparts
  obtain rfl := Hash32.ext_bytes hroots
  rw [hash_unsigned] at hroot hroot'
  exact ⟨declaredHash_inj hsep _ hina.1 hinb.1 hroot hroot', toVec_inj hinstances hinstances',
    toVec_inj hresources hresources'⟩

end Trees

/-- Past the depth gate an intent's hash is there, and is another intent's exactly if the two
agree short of their members' attestations; a tree's hashes are its intents' own, in order;
and trees of one hash agree in their records too. -/
theorem hash_is_signed_content (H : Hbor.Hasher) :
    (∀ a b : Intent, Written intent a → Written intent b →
      depthGate a = .ok () → depthGate b = .ok () →
      H.Separates (hashInputs H a.unsigned ++ hashInputs H b.unsigned) →
      ∃ hash hash', a.hash H = some hash ∧ b.hash H = some hash' ∧
        (hash = hash' ↔ a.unsigned = b.unsigned)) ∧
    (∀ tree : IntentTree, tree.hashes H = tree.intents.mapM (Intent.hash H)) ∧
    ∀ a b : IntentTree, Written intentTree a → Written intentTree b →
      depthGate a.root = .ok () → depthGate b.root = .ok () →
      checkInstanceRecords configBytes a.instances = .ok () →
      checkInstanceRecords configBytes b.instances = .ok () →
      H.Separates (treeInputs H a ++ treeInputs H b) →
      ∃ hash hash', a.hash H = some hash ∧ b.hash H = some hash' ∧
        (hash = hash' → a.root.unsigned = b.root.unsigned ∧ a.instances = b.instances ∧
          a.resources = b.resources) := by
  refine ⟨?_, hashes_each H, ?_⟩
  · intro a b hwritten hwritten' hgate hgate' hsep
    obtain ⟨hash, hhash⟩ := hash_total (H := H) a hwritten (gated_each hgate)
    obtain ⟨hash', hhash'⟩ := hash_total (H := H) b hwritten' (gated_each hgate')
    refine ⟨hash, hash', hhash, hhash', ?_, ?_⟩
    · rintro rfl
      rw [hash_unsigned] at hhash hhash'
      exact declaredHash_inj hsep _ (subset_append_left _ _) (subset_append_right _ _)
        hhash hhash'
    · intro hsame
      rw [hash_unsigned, hsame, ← hash_unsigned, hhash'] at hhash
      exact (Option.some.inj hhash).symm
  · intro a b hwritten hwritten' hgate hgate' hrecords hrecords' hsep
    obtain ⟨input, hinput⟩ := treeInput_total (H := H) hwritten hgate hrecords
    obtain ⟨input', hinput'⟩ := treeInput_total (H := H) hwritten' hgate' hrecords'
    refine ⟨H.hash input, H.hash input', ?_, ?_, ?_⟩
    · rw [IntentTree.hash, hinput]
      rfl
    · rw [IntentTree.hash, hinput']
      rfl
    · exact treeInput_inj hsep (subset_append_left _ _) (subset_append_right _ _) hinput hinput'

def composing (start : ℕ) (attestations : List Attestation) : Intent :=
  .mk ⟨0, start, 9, 0⟩ [someone] [someone] [calling (.bool true)] [] []
    [(composed 0 [], attestations, [])]

def attesting : List Attestation := [⟨0, [1, 2], [3]⟩]

def fungible : ResourceMeta := ⟨someone, .fungible, [], []⟩

theorem attestation_leaves_the_hash : (∃ hash, (composing 0 []).hash testHasher = some hash ∧
      (composing 0 attesting).hash testHasher = some hash) ∧
    (composing 0 []).hash testHasher ≠ (composing 1 []).hash testHasher ∧
    IntentTree.hash testHasher ⟨composing 0 [], [], []⟩ ≠
      IntentTree.hash testHasher ⟨composing 0 [], [], [fungible]⟩ := by
  obtain ⟨hintents, -, htrees⟩ := hash_is_signed_content testHasher
  have hready : ∀ start attestations, (start = 0 ∨ start = 1) →
      (attestations = [] ∨ attestations = attesting) →
      Written intent (composing start attestations) ∧
        depthGate (composing start attestations) = .ok () := by
    intro start attestations hstart hattestations
    have hgate : passes (depthGate (composing start attestations)) (fun _ => true) = true ∧
        intent.readsBack 64 (composing start attestations) = true := by
      rcases hstart with rfl | rfl <;> rcases hattestations with rfl | rfl <;> decide +kernel
    obtain ⟨_, hok, -⟩ := passes_iff.mp hgate.1
    exact ⟨⟨64, (Codec.valid_of_readsBack hgate.2).2⟩, hok⟩
  obtain ⟨hbare, hbareGate⟩ := hready 0 [] (.inl rfl) (.inl rfl)
  obtain ⟨hattested, hattestedGate⟩ := hready 0 attesting (.inl rfl) (.inr rfl)
  obtain ⟨hlater, hlaterGate⟩ := hready 1 [] (.inr rfl) (.inl rfl)
  refine ⟨?_, ?_, ?_⟩
  · obtain ⟨hash, hash', hhash, hhash', hiff⟩ := hintents (composing 0 []) (composing 0 attesting)
      hbare hattested hbareGate hattestedGate (by decide +kernel)
    exact ⟨hash, hhash, hiff.mpr rfl ▸ hhash'⟩
  · obtain ⟨hash, hash', hhash, hhash', hiff⟩ := hintents (composing 0 []) (composing 1 [])
      hbare hlater hbareGate hlaterGate (by decide +kernel)
    rw [hhash, hhash']
    intro hsame
    have hheaders := congrArg Admission.Intent.header (hiff.mp (Option.some.inj hsame))
    exact absurd (congrArg IntentHeader.validityStartMs hheaders) (by decide)
  · have hback : intentTree.readsBack 66 ⟨composing 0 [], [], []⟩ = true ∧
        intentTree.readsBack 66 ⟨composing 0 [], [], [fungible]⟩ = true := by decide +kernel
    obtain ⟨hash, hash', hhash, hhash', himplies⟩ := htrees ⟨composing 0 [], [], []⟩
      ⟨composing 0 [], [], [fungible]⟩ ⟨66, (Codec.valid_of_readsBack hback.1).2⟩
      ⟨66, (Codec.valid_of_readsBack hback.2).2⟩ hbareGate hbareGate rfl rfl (by decide +kernel)
    rw [hhash, hhash']
    intro hsame
    exact absurd (himplies (Option.some.inj hsame)).2.2 (by decide)

end HyperscaleVm.Effects.Wire

import HyperscaleVm.Effects.Wire.Travel
import HyperscaleVm.Effects.Admission.Numbering
import HyperscaleVm.Hbor.Hash
import HyperscaleVm.Library.PaddedTree

/-!
# The identity of an intent (`effects/src/intent.rs`, `graph.rs`, `admission/tree.rs`)

An intent's hash is taken over the encodings of what its signer signs, each section led
by its count, the graph and every member entering as their own hashes. Everything here
is `none` where the source panics. The hasher is assumed to tell apart the inputs it is
given, no more.
-/

namespace HyperscaleVm.Effects.Wire
open Library Hbor Admission List
open Library.Codec (Charges Shallow)

def toVec {α : Type} (c : Wire α) (v : α) : Option Bytes :=
  (c.encode DEFAULT_MAX_DEPTH v).toOption

def DOMAIN_INTENT : Bytes := "hyperscale-vm/intent".toUTF8.toList

def DOMAIN_INTENT_TREE : Bytes := "hyperscale-vm/intent-tree".toUTF8.toList

def DOMAIN_GRAPH_NODE : Bytes := "hyperscale-vm/graph-node".toUTF8.toList

def DOMAIN_GRAPH : Bytes := "hyperscale-vm/graph".toUTF8.toList

def nodeInput (node : GraphNode) : Option HashInput := do
  let target ← toVec callTarget node.target
  let args ← node.args.mapM (toVec graphArg)
  let evidence ← toVec evidence node.evidence
  some ⟨DOMAIN_GRAPH_NODE, target :: utf8 node.method :: (args ++ [evidence])⟩

def count (length : ℕ) : Option Bytes :=
  if length < 2 ^ 32 then some (leBytes 4 length) else none

section Hashing

variable (H : Hbor.Hasher)

/-- `ManifestGraph::hash`, over the hash of every node. -/
def graphInput (nodes : List GraphNode) : Option HashInput := do
  let inputs ← nodes.mapM nodeInput
  some ⟨DOMAIN_GRAPH, inputs.map fun input => (H.hash input).bytes⟩

def memberParts (hashes : List Hash32) (wirings : List Bytes) : List Bytes :=
  (hashes.zip wirings).flatMap fun (hash, wiring) => [hash.bytes, wiring]

/-- `hash_over`, up to the hashing itself. -/
def intentInput (hashes : List Hash32) (i : Admission.Intent) : Option HashInput := do
  guard (hashes.length = i.members.length)
  let graph ← graphInput H i.nodes
  let header ← toVec intentHeader i.header
  let accounts ← toVec (principals MAX_ACCOUNTS) i.accounts
  let attestedBy ← toVec (principals MAX_ATTESTATIONS) i.attestedBy
  let socketCount ← count i.sockets.length
  let sockets ← i.sockets.mapM (toVec socket)
  let giveCount ← count i.gives.length
  let gives ← i.gives.mapM (toVec valueRef)
  let memberCount ← count i.members.length
  let wirings ← i.members.mapM fun member => toVec wiring member.2
  some ⟨DOMAIN_INTENT, header :: accounts :: attestedBy :: (H.hash graph).bytes :: socketCount ::
    (sockets ++ giveCount :: (gives ++ memberCount :: memberParts hashes wirings))⟩

def hashOver (hashes : List Hash32) (i : Admission.Intent) : Option Hash32 :=
  (intentInput H hashes i).map H.hash

mutual

/-- `Intent::hash` of a declaration. -/
def declaredHash : Admission.Intent → Option Hash32
  | .mk header accounts attestedBy nodes sockets gives members => do
    let hashes ← declaredHashes members
    hashOver H hashes (.mk header accounts attestedBy nodes sockets gives members)

def declaredHashes : List (Admission.Intent × List Binding) → Option (List Hash32)
  | [] => some []
  | (i, _) :: members => do
    let hash ← declaredHash i
    let hashes ← declaredHashes members
    some (hash :: hashes)

end

mutual

/-- Of a member only the intent and the wiring are read. -/
def Intent.hash : Intent → Option Hash32
  | .mk header accounts attestedBy nodes sockets gives members => do
    let hashes ← memberHashes members
    hashOver H hashes (Intent.mk header accounts attestedBy nodes sockets gives members).unsigned

def memberHashes : List Member → Option (List Hash32)
  | [] => some []
  | (i, _, _) :: members => do
    let hash ← i.hash
    let hashes ← memberHashes members
    some (hash :: hashes)

end

mutual

theorem hash_unsigned : (i : Intent) → i.hash H = declaredHash H i.unsigned
  | .mk header accounts attestedBy nodes sockets gives members => by
    rw [Intent.hash, Intent.unsigned, declaredHash, memberHashes_unsigned members]

theorem memberHashes_unsigned : (members : List Member) →
    memberHashes H members = declaredHashes H (unsignedMembers members)
  | [] => rfl
  | (i, _, _) :: members => by
    rw [memberHashes, unsignedMembers, declaredHashes, hash_unsigned i,
      memberHashes_unsigned members]

end

/-- `IntentTree::hash`, up to the hashing itself. -/
def treeInput (tree : IntentTree) : Option HashInput := do
  let root ← tree.root.hash H
  let instances ← toVec (vec (some MAX_MANIFEST_NODES) instanceMeta instanceMeta_wide)
    tree.instances
  let resources ← toVec (vec (some MAX_MANIFEST_NODES) resourceMeta resourceMeta_wide)
    tree.resources
  some ⟨DOMAIN_INTENT_TREE, [root.bytes, instances, resources]⟩

def IntentTree.hash (tree : IntentTree) : Option Hash32 := (treeInput H tree).map H.hash

def Flattened.hashes (flat : Flattened) : Option (List Hash32) :=
  flat.intents.zipIdx.reverse.foldlM (fun computed (i, at_) => do
    let children ← flat.children[at_]?
    let members ← children.mapM fun member => computed[member]?
    let hash ← hashOver H members i
    some (computed.set at_ hash))
    (List.replicate flat.intents.length ⟨List.replicate 32 0, List.length_replicate⟩)

end Hashing

section Once

variable {H : Hbor.Hasher}

theorem declaredHashes_mapM (members : List (Admission.Intent × List Binding)) :
    declaredHashes H members = (members.map Prod.fst).mapM (declaredHash H) := by
  induction members with
  | nil => rfl
  | cons member members ih =>
    obtain ⟨i, wiring⟩ := member
    rw [declaredHashes, ih, map_cons, mapM_cons]
    rfl

theorem declaredHash_over (i : Admission.Intent) : declaredHash H i =
      ((i.members.map Prod.fst).mapM (declaredHash H)).bind fun hashes => hashOver H hashes i := by
  cases i with
  | mk header accounts attestedBy nodes sockets gives members =>
    rw [declaredHash, declaredHashes_mapM]
    rfl

theorem hashes_from {root : Admission.Intent} (suffix : List Admission.Intent) :
    ∀ front : List Admission.Intent, (walk root).intents = front ++ suffix → ∀ blank : Hash32,
    (suffix.zipIdx front.length).reverse.foldlM (fun computed (i, at_) => do
      let children ← (walk root).children[at_]?
      let members ← children.mapM fun member => computed[member]?
      let hash ← hashOver H members i
      some (computed.set at_ hash)) (List.replicate (front.length + suffix.length) blank) =
    (suffix.mapM (declaredHash H)).map (List.replicate front.length blank ++ ·) := by
  induction suffix with
  | nil =>
    intro front _ blank
    simp
  | cons i suffix ih =>
    intro front hintents blank
    have hrest := ih (front ++ [i]) (by rw [hintents, append_assoc]; rfl) blank
    rw [length_append, length_singleton] at hrest
    have hlength : front.length + (i :: suffix).length = front.length + 1 + suffix.length := by
      rw [length_cons]
      omega
    rw [zipIdx_cons, reverse_cons, foldlM_append, hlength, hrest, mapM_cons]
    cases hsuffix : suffix.mapM (declaredHash H) with
    | none => cases declaredHash H i <;> rfl
    | some hashes =>
      have hat : (walk root).intents[front.length]? = some i := by
        rw [hintents, getElem?_append_right le_rfl, Nat.sub_self]
        rfl
      obtain ⟨numbered, hchildren, hmembers, hafter⟩ := walk_children hat
      -- every child stands further on, so its hash has been computed
      have hcomputed : (numbered.map Prod.fst).mapM
          (fun member => (List.replicate (front.length + 1) blank ++ hashes)[member]?) =
          (i.members.map Prod.fst).mapM (declaredHash H) := by
        rw [← hmembers, mapM_map, mapM_map]
        refine mapM_congr fun kid hkid => ?_
        obtain ⟨number, child⟩ := kid
        obtain ⟨hlt, hchild⟩ := hafter number child hkid
        have hpast : (List.replicate (front.length + 1) blank).length ≤ number := by
          rw [List.length_replicate]
          exact hlt
        have hsuffixed : suffix[number - (front.length + 1)]? = some child := by
          rwa [hintents, getElem?_append_right (by omega), getElem?_cons, if_neg (by omega),
            Nat.sub_sub] at hchild
        rw [Function.comp_apply, Function.comp_apply, getElem?_append_right hpast,
          List.length_replicate]
        exact getElem?_of_mapM hsuffix hsuffixed
      rw [declaredHash_over, ← hcomputed]
      simp only [foldlM_cons, foldlM_nil, Option.map_some, Option.bind_eq_bind,
        Option.bind_some, hchildren]
      cases (numbered.map Prod.fst).mapM
          (fun member => (List.replicate (front.length + 1) blank ++ hashes)[member]?) with
      | none => rfl
      | some members =>
        simp only [Option.bind_some]
        cases hashOver H members i with
        | none => rfl
        | some hash =>
          simp [List.replicate_succ']

theorem hashes_mapM (root : Admission.Intent) :
    Flattened.hashes H (walk root) = (walk root).intents.mapM (declaredHash H) := by
  have hall := hashes_from (H := H) (walk root).intents [] rfl
    ⟨List.replicate 32 0, List.length_replicate⟩
  rw [length_nil, Nat.zero_add] at hall
  unfold Flattened.hashes
  rw [hall]
  simp

end Once

variable {α : Type} {bytes : Bytes}

theorem toVec_some {c : Wire α} {v : α} :
    toVec c v = some bytes ↔ c.encode DEFAULT_MAX_DEPTH v = .ok bytes := by
  unfold toVec
  cases c.encode DEFAULT_MAX_DEPTH v <;> simp [Except.toOption]

theorem toVec_inj {c : Wire α} {v w : α} (hv : toVec c v = some bytes)
    (hw : toVec c w = some bytes) : v = w :=
  c.encode_inj (toVec_some.mp hv) (toVec_some.mp hw)

theorem nodeInput_inj {node node' : GraphNode} {input : HashInput} (h : nodeInput node = some input)
    (h' : nodeInput node' = some input) : node = node' := by
  simp only [nodeInput, do_some] at h h'
  obtain ⟨target, htarget, args, hargs, evidence, hevidence, h⟩ := h
  obtain ⟨target', htarget', args', hargs', evidence', hevidence', h'⟩ := h'
  cases h
  have hparts := congrArg HashInput.parts (Option.some.inj h')
  simp only [List.cons.injEq] at hparts
  obtain ⟨rfl, hmethod, hrest⟩ := hparts
  obtain ⟨rfl, hlast⟩ := append_inj' hrest rfl
  cases hlast
  have htargets := toVec_inj htarget htarget'
  have hmethods := utf8_inj hmethod
  have hargss := mapM_inj (fun _ _ _ => toVec_inj) hargs hargs'
  have hevidences := toVec_inj hevidence hevidence'
  cases node
  cases node'
  simp_all

theorem count_inj {n m : ℕ} (h : count n = some bytes) (h' : count m = some bytes) : n = m := by
  unfold count at h h'
  split at h
  · rename_i hn
    split at h'
    · rename_i hm
      cases h
      exact leBytes_inj (by omega) (by omega) (Option.some.inj h').symm
    · cases h'
  · cases h

theorem memberParts_inj {hashes hashes' : List Hash32} {wirings wirings' : List Bytes}
    (hlength : hashes.length = wirings.length) (hlength' : hashes'.length = wirings'.length)
    (h : memberParts hashes wirings = memberParts hashes' wirings') :
    hashes = hashes' ∧ wirings = wirings' := by
  induction hashes generalizing hashes' wirings wirings' with
  | nil => cases wirings <;> cases hashes' <;> cases wirings' <;> simp_all [memberParts]
  | cons hash hashes ih =>
    match wirings, hashes', wirings' with
    | [], _, _ => cases hlength
    | _, _ :: _, [] => cases hlength'
    | _ :: _, [], [] => cases h
    | wiring :: wirings, hash' :: hashes', wiring' :: wirings' =>
      simp only [memberParts, zip_cons_cons, flatMap_cons, cons_append, nil_append,
        List.cons.injEq] at h
      obtain ⟨hhash, rfl, hrest⟩ := h
      obtain ⟨rfl, rfl⟩ := ih (by simpa using hlength) (by simpa using hlength') hrest
      rw [Hash32.ext_bytes hhash]
      exact ⟨rfl, rfl⟩

structure IntentParts (H : Hbor.Hasher) (hashes : List Hash32) (i : Admission.Intent)
    (input : HashInput) where
  graph : HashInput
  header : Bytes
  accounts : Bytes
  attestedBy : Bytes
  socketCount : Bytes
  sockets : List Bytes
  giveCount : Bytes
  gives : List Bytes
  memberCount : Bytes
  wirings : List Bytes
  counted : hashes.length = i.members.length
  graph_eq : graphInput H i.nodes = some graph
  header_eq : toVec intentHeader i.header = some header
  accounts_eq : toVec (principals MAX_ACCOUNTS) i.accounts = some accounts
  attestedBy_eq : toVec (principals MAX_ATTESTATIONS) i.attestedBy = some attestedBy
  socketCount_eq : count i.sockets.length = some socketCount
  sockets_eq : i.sockets.mapM (toVec socket) = some sockets
  giveCount_eq : count i.gives.length = some giveCount
  gives_eq : i.gives.mapM (toVec valueRef) = some gives
  memberCount_eq : count i.members.length = some memberCount
  wirings_eq : (i.members.mapM fun member => toVec wiring member.2) = some wirings
  input_eq : input = ⟨DOMAIN_INTENT, header :: accounts :: attestedBy :: (H.hash graph).bytes ::
    socketCount :: (sockets ++ giveCount :: (gives ++ memberCount :: memberParts hashes wirings))⟩

section Apart

variable {H : Hbor.Hasher} {hashes hashes' : List Hash32} {i j : Admission.Intent}
  {input : HashInput}

theorem intentInput_some (h : intentInput H hashes i = some input) :
    Nonempty (IntentParts H hashes i input) := by
  simp only [intentInput, do_some] at h
  obtain ⟨_, hcounted, graph, hgraph, header, hheader, accounts, haccounts, attestedBy, hattestedBy,
    socketCount, hsocketCount, sockets, hsockets, giveCount, hgiveCount, gives, hgives, memberCount,
    hmemberCount, wirings, hwirings, h⟩ := h
  have hlength : hashes.length = i.members.length := by
    by_contra hne
    simp [guard, hne] at hcounted
  exact ⟨⟨graph, header, accounts, attestedBy, socketCount, sockets, giveCount, gives, memberCount,
    wirings, hlength, hgraph, hheader, haccounts, hattestedBy, hsocketCount, hsockets, hgiveCount,
    hgives, hmemberCount, hwirings, (Option.some.inj h).symm⟩⟩

theorem IntentParts.agree (P : IntentParts H hashes i input) (Q : IntentParts H hashes' j input) :
    i.header = j.header ∧ i.accounts = j.accounts ∧ i.attestedBy = j.attestedBy ∧
      H.hash P.graph = H.hash Q.graph ∧ i.sockets = j.sockets ∧ i.gives = j.gives ∧
      hashes = hashes' ∧ i.members.map Prod.snd = j.members.map Prod.snd := by
  have hparts := congrArg HashInput.parts (P.input_eq.symm.trans Q.input_eq)
  simp only [List.cons.injEq] at hparts
  obtain ⟨hheader, haccounts, hattestedBy, hgraph, hsocketCount, hparts⟩ := hparts
  have hsocketLength : P.sockets.length = Q.sockets.length := by
    rw [length_of_mapM P.sockets_eq, length_of_mapM Q.sockets_eq]
    exact count_inj P.socketCount_eq (hsocketCount ▸ Q.socketCount_eq)
  obtain ⟨hsockets, hparts⟩ := append_inj hparts hsocketLength
  simp only [List.cons.injEq] at hparts
  obtain ⟨hgiveCount, hparts⟩ := hparts
  have hgiveLength : P.gives.length = Q.gives.length := by
    rw [length_of_mapM P.gives_eq, length_of_mapM Q.gives_eq]
    exact count_inj P.giveCount_eq (hgiveCount ▸ Q.giveCount_eq)
  obtain ⟨hgives, hparts⟩ := append_inj hparts hgiveLength
  simp only [List.cons.injEq] at hparts
  have hmembers := memberParts_inj (P.counted.trans (length_of_mapM P.wirings_eq).symm)
    (Q.counted.trans (length_of_mapM Q.wirings_eq).symm) hparts.2
  have hwirings : i.members.map Prod.snd = j.members.map Prod.snd := by
    have hP : (i.members.map Prod.snd).mapM (toVec wiring) = some P.wirings := by
      rw [mapM_map]
      exact P.wirings_eq
    have hQ : (j.members.map Prod.snd).mapM (toVec wiring) = some P.wirings := by
      rw [mapM_map, hmembers.2]
      exact Q.wirings_eq
    exact mapM_inj (fun _ _ _ => toVec_inj) hP hQ
  exact ⟨toVec_inj P.header_eq (hheader ▸ Q.header_eq),
    toVec_inj P.accounts_eq (haccounts ▸ Q.accounts_eq),
    toVec_inj P.attestedBy_eq (hattestedBy ▸ Q.attestedBy_eq), Hash32.ext_bytes hgraph,
    mapM_inj (fun _ _ _ => toVec_inj) P.sockets_eq (hsockets ▸ Q.sockets_eq),
    mapM_inj (fun _ _ _ => toVec_inj) P.gives_eq (hgives ▸ Q.gives_eq), hmembers.1, hwirings⟩

end Apart

section Identity

variable (H : Hbor.Hasher)

def graphInputs (nodes : List GraphNode) : List HashInput :=
  nodes.filterMap nodeInput ++ (graphInput H nodes).toList

mutual

def hashInputs : Admission.Intent → List HashInput
  | .mk header accounts attestedBy nodes sockets gives members =>
    graphInputs H nodes ++
      ((declaredHashes H members).bind fun hashes => intentInput H hashes
        (.mk header accounts attestedBy nodes sockets gives members)).toList ++
      memberInputs members

def memberInputs : List (Admission.Intent × List Binding) → List HashInput
  | [] => []
  | (i, _) :: members => hashInputs i ++ memberInputs members

end

variable {H} {inputs : List HashInput} (hsep : H.Separates inputs)

include hsep

theorem graph_inj {nodes nodes' : List GraphNode} {graph graph' : HashInput}
    (hin : graphInputs H nodes ⊆ inputs) (hin' : graphInputs H nodes' ⊆ inputs)
    (h : graphInput H nodes = some graph) (h' : graphInput H nodes' = some graph')
    (hsame : H.hash graph = H.hash graph') : nodes = nodes' := by
  have hmem : graph ∈ inputs := hin (mem_append_right _ (by rw [h]; exact mem_singleton_self _))
  have hmem' : graph' ∈ inputs :=
    hin' (mem_append_right _ (by rw [h']; exact mem_singleton_self _))
  obtain rfl := hsep graph hmem graph' hmem' hsame
  obtain ⟨nodeInputs, hnodes, h⟩ := Option.bind_eq_some_iff.mp h
  obtain ⟨nodeInputs', hnodes', h'⟩ := Option.bind_eq_some_iff.mp h'
  cases h
  have hparts := congrArg HashInput.parts (Option.some.inj h')
  have hheld : ∀ {ns : List GraphNode} {ins : List HashInput}, ns.mapM nodeInput = some ins →
      graphInputs H ns ⊆ inputs → ∀ input ∈ ins, input ∈ inputs := by
    intro ns ins hns hsub input hinput
    obtain ⟨node, hnode, hof⟩ := exists_mem_left (mapM_some.mp hns) hinput
    exact hsub (mem_append_left _ (mem_filterMap.mpr ⟨node, hnode, hof⟩))
  have hinputs : nodeInputs' = nodeInputs := by
    have hinj : Set.InjOn (fun input => (H.hash input).bytes) {input | input ∈ inputs} :=
      fun a ha b hb hbytes => hsep a ha b hb (Hash32.ext_bytes hbytes)
    exact map_injOn hinj (hheld hnodes' hin') (hheld hnodes hin) hparts
  rw [hinputs] at hnodes'
  exact mapM_inj (fun _ _ _ => nodeInput_inj) hnodes hnodes'

end Identity

section Declared

variable {H : Hbor.Hasher} {inputs : List HashInput}

theorem own_mem {header : IntentHeader} {accounts attestedBy : List Address}
    {nodes : List GraphNode} {sockets : List Socket} {gives : List ValueRef}
    {members : List (Admission.Intent × List Binding)} {hashes : List Hash32} {input : HashInput}
    (hhashes : declaredHashes H members = some hashes)
    (hinput : intentInput H hashes (.mk header accounts attestedBy nodes sockets gives members) =
      some input) :
    input ∈ hashInputs H (.mk header accounts attestedBy nodes sockets gives members) := by
  rw [hashInputs, hhashes, Option.bind_some, hinput]
  exact mem_append_left _ (mem_append_right _ (mem_singleton_self _))

mutual

theorem declaredHash_inj (hsep : H.Separates inputs) :
    (i : Admission.Intent) → ∀ {j : Admission.Intent} {hash : Hash32},
    hashInputs H i ⊆ inputs → hashInputs H j ⊆ inputs → declaredHash H i = some hash →
    declaredHash H j = some hash → i = j
  | .mk header accounts attestedBy nodes sockets gives members,
    .mk header' accounts' attestedBy' nodes' sockets' gives' members', hash => by
    intro hin hin' h h'
    simp only [declaredHash, hashOver, do_some, Option.map_eq_some_iff] at h h'
    obtain ⟨hashes, hhashes, input, hinput, hhash⟩ := h
    obtain ⟨hashes', hhashes', input', hinput', hhash'⟩ := h'
    obtain rfl := hsep input (hin (own_mem hhashes hinput)) input' (hin' (own_mem hhashes' hinput'))
      (hhash.trans hhash'.symm)
    obtain ⟨P⟩ := intentInput_some hinput
    obtain ⟨Q⟩ := intentInput_some hinput'
    obtain ⟨hheader, haccounts, hattestedBy, hgraph, hsockets, hgives, rfl, hwirings⟩ := P.agree Q
    rw [hashInputs, append_subset, append_subset] at hin hin'
    have hnodes : nodes = nodes' :=
      graph_inj hsep hin.1.1 hin'.1.1 P.graph_eq Q.graph_eq hgraph
    have hintents := declaredHashes_inj hsep members hin.2 hin'.2 hhashes hhashes'
    have hmembers : members = members' := by
      have hwirings : members.map Prod.snd = members'.map Prod.snd := hwirings
      rw [← zip_unzip members, ← zip_unzip members', unzip_eq_map, unzip_eq_map,
        hintents, hwirings]
    cases hheader
    cases haccounts
    cases hattestedBy
    cases hsockets
    cases hgives
    rw [hnodes, hmembers]

theorem declaredHashes_inj (hsep : H.Separates inputs) :
    (members : List (Admission.Intent × List Binding)) →
    ∀ {members' : List (Admission.Intent × List Binding)} {hashes : List Hash32},
    memberInputs H members ⊆ inputs → memberInputs H members' ⊆ inputs →
    declaredHashes H members = some hashes → declaredHashes H members' = some hashes →
    members.map Prod.fst = members'.map Prod.fst
  | [], [], _ => by
    intro _ _ _ _
    rfl
  | [], (i', wiring') :: members', hashes => by
    intro _ _ h h'
    cases h
    simp [declaredHashes, Option.bind_eq_some_iff] at h'
  | (i, wiring) :: members, [], hashes => by
    intro _ _ h h'
    cases h'
    simp [declaredHashes, Option.bind_eq_some_iff] at h
  | (i, wiring) :: members, (i', wiring') :: members', hashes => by
    intro hin hin' h h'
    simp only [declaredHashes, do_some] at h h'
    obtain ⟨hash, hhash, rest, hrest, h⟩ := h
    obtain ⟨hash', hhash', rest', hrest', h'⟩ := h'
    cases h
    cases h'
    rw [memberInputs, append_subset] at hin hin'
    rw [map_cons, map_cons, declaredHash_inj hsep i hin.1 hin'.1 hhash hhash',
      declaredHashes_inj hsep members hin.2 hin'.2 hrest hrest']

end

end Declared

end HyperscaleVm.Effects.Wire

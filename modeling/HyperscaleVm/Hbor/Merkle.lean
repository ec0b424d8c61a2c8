import HyperscaleVm.Hbor.Hash
import HyperscaleVm.Library.PaddedTree

/-!
# Merkle roots and proofs (`hbor/src/merkle.rs`)

Leaves, internal nodes, padding and roots are hashed under domains of their own.
-/

namespace HyperscaleVm.Hbor
open List Library

def DOMAIN_LEAF : Bytes := "hbor-merkle-leaf-v1".toUTF8.toList

def DOMAIN_NODE : Bytes := "hbor-merkle-node-v1".toUTF8.toList

def DOMAIN_PAD : Bytes := "hbor-merkle-pad-v1".toUTF8.toList

def DOMAIN_ROOT : Bytes := "hbor-merkle-root-v1".toUTF8.toList

structure Chunks where
  list : List Bytes
  counted : list.length < 2 ^ 64

/-- `Proof`, its leaf count a `usize`. -/
structure Proof where
  index : ℕ
  leafCount : ℕ
  siblings : List Hash32
  counted : leafCount < 2 ^ 64

def leafInput (bytes : Bytes) : HashInput := ⟨DOMAIN_LEAF, [bytes]⟩

def nodeInput (pair : Hash32 × Hash32) : HashInput :=
  ⟨DOMAIN_NODE, [pair.1.bytes, pair.2.bytes]⟩

def finishInput (domain : Bytes) (tree : Hash32) (leafCount : ℕ) : HashInput :=
  ⟨DOMAIN_ROOT, [domain, tree.bytes, leBytes 8 leafCount]⟩

namespace Hasher

variable (H : Hasher)

def leaf (bytes : Bytes) : Hash32 := H.hash (leafInput bytes)

def node (pair : Hash32 × Hash32) : Hash32 := H.hash (nodeInput pair)

def pad : Hash32 := H.hash ⟨DOMAIN_PAD, []⟩

def finish (domain : Bytes) (tree : Hash32) (leafCount : ℕ) : Hash32 :=
  H.hash (finishInput domain tree leafCount)

def treeOf (chunks : Chunks) : Hash32 :=
  let level := chunks.list.map H.leaf
  if level.isEmpty then H.pad
  else (treeTop H.node H.pad level.length level).getD H.pad

def rootOf (domain : Bytes) (chunks : Chunks) : Hash32 :=
  H.finish domain (H.treeOf chunks) chunks.list.length

/-- The indexing at each level stays inside it, so nothing but an index past the leaves is answered
with nothing. -/
def prove (chunks : Chunks) (index : ℕ) : Option Proof :=
  if chunks.list.length ≤ index then none
  else do
    let level := chunks.list.map H.leaf
    let siblings ← treePath H.node H.pad level.length level index
    some ⟨index, chunks.list.length, siblings, chunks.counted⟩

def verify (domain : Bytes) (root : Hash32) (leafBytes : Bytes) (proof : Proof) : Bool :=
  if proof.leafCount ≤ proof.index then false
  else
    match treeWalk H.node proof.leafCount proof.leafCount proof.index (H.leaf leafBytes)
        proof.siblings with
    | none => false
    | some current => decide (H.finish domain current proof.leafCount = root)

def rootInputs (domain : Bytes) (chunks : Chunks) : List HashInput :=
  let level := chunks.list.map H.leaf
  chunks.list.map leafInput ++
    (treePairs H.node H.pad level.length level).map nodeInput ++
    [finishInput domain (H.treeOf chunks) chunks.list.length]

def verifyInputs (domain leafBytes : Bytes) (proof : Proof) : List HashInput :=
  leafInput leafBytes ::
    (walkPairs H.node proof.leafCount proof.leafCount proof.index (H.leaf leafBytes)
      proof.siblings).map nodeInput ++
    ((treeWalk H.node proof.leafCount proof.leafCount proof.index (H.leaf leafBytes)
      proof.siblings).map fun current => finishInput domain current proof.leafCount).toList

variable {H}

theorem leafInput_inj {a b : Bytes} (h : leafInput a = leafInput b) : a = b := by
  simpa [leafInput] using h

theorem nodeInput_inj {p q : Hash32 × Hash32} (h : nodeInput p = nodeInput q) : p = q := by
  obtain ⟨hleft, hright⟩ : p.1.bytes = q.1.bytes ∧ p.2.bytes = q.2.bytes := by
    simpa [nodeInput] using h
  exact Prod.ext (Hash32.ext_bytes hleft) (Hash32.ext_bytes hright)

variable {domain domain' : Bytes}

theorem finishInput_inj {tree tree' : Hash32} {count count' : ℕ}
    (hcount : count < 2 ^ 64) (hcount' : count' < 2 ^ 64)
    (h : finishInput domain tree count = finishInput domain' tree' count') :
    domain = domain' ∧ tree = tree' ∧ count = count' := by
  obtain ⟨hdomain, htree, hbytes⟩ :
      domain = domain' ∧ tree.bytes = tree'.bytes ∧ leBytes 8 count = leBytes 8 count' := by
    simpa [finishInput] using h
  exact ⟨hdomain, Hash32.ext_bytes htree,
    Library.leBytes_inj (hcount.trans_eq (by norm_num)) (hcount'.trans_eq (by norm_num)) hbytes⟩

theorem Separates.node_injOn {inputs : List HashInput} (h : H.Separates inputs) :
    Set.InjOn H.node { pair | nodeInput pair ∈ inputs } :=
  fun _ hp _ hq heq => nodeInput_inj (h _ hp _ hq heq)

section

variable {domain : Bytes} {chunks : Chunks}

theorem treeOf_eq (hchunks : chunks.list ≠ []) :
    treeTop H.node H.pad chunks.list.length (chunks.list.map H.leaf) = some (H.treeOf chunks) := by
  have hlevel : chunks.list.map H.leaf ≠ [] := by simpa using hchunks
  obtain ⟨top, htop⟩ := Library.treeTop_isSome H.node H.pad chunks.list.length hlevel
  have hempty : (chunks.list.map H.leaf).isEmpty = false := by simpa using hlevel
  rw [treeOf, hempty, length_map, htop]
  rfl

theorem leafInput_mem_rootInputs {bytes : Bytes} (h : bytes ∈ chunks.list) :
    leafInput bytes ∈ H.rootInputs domain chunks := by
  simp only [rootInputs, append_assoc, mem_append, mem_map]
  exact .inl ⟨bytes, h, rfl⟩

theorem nodeInput_mem_rootInputs {pair : Hash32 × Hash32}
    (h : pair ∈ treePairs H.node H.pad chunks.list.length (chunks.list.map H.leaf)) :
    nodeInput pair ∈ H.rootInputs domain chunks := by
  simp only [rootInputs, append_assoc, mem_append, mem_map, length_map]
  exact .inr (.inl ⟨pair, h, rfl⟩)

theorem finishInput_mem_rootInputs :
    finishInput domain (H.treeOf chunks) chunks.list.length ∈ H.rootInputs domain chunks := by
  simp [rootInputs]

end

variable {chunks : Chunks}

theorem verify_prove (domain : Bytes) {index : ℕ} {bytes : Bytes}
    (h : chunks.list[index]? = some bytes) : ∃ proof, H.prove chunks index = some proof ∧
      H.verify domain (H.rootOf domain chunks) bytes proof = true := by
  obtain ⟨hindex, -⟩ := List.getElem?_eq_some_iff.mp h
  have hnonempty : chunks.list ≠ [] := List.ne_nil_of_length_pos (by omega)
  have hleaf : (chunks.list.map H.leaf)[index]? = some (H.leaf bytes) := by
    rw [getElem?_map, h, Option.map_some]
  obtain ⟨siblings, hpath, hwalk⟩ := Library.treeWalk_treePath H.node H.pad
    (le_refl (chunks.list.map H.leaf).length) hleaf
  refine ⟨⟨index, chunks.list.length, siblings, chunks.counted⟩, ?_, ?_⟩
  · rw [prove, if_neg (by omega)]
    dsimp only
    rw [hpath]
    rfl
  · rw [length_map, treeOf_eq hnonempty] at hwalk
    rw [verify, if_neg (by simpa using hindex)]
    dsimp only
    rw [hwalk]
    exact decide_eq_true rfl

variable {leafBytes : Bytes} {proof : Proof}

theorem verify_ok {root : Hash32}
    (h : H.verify domain root leafBytes proof = true) : proof.index < proof.leafCount ∧ ∃ current,
      treeWalk H.node proof.leafCount proof.leafCount proof.index (H.leaf leafBytes)
        proof.siblings = some current ∧
      H.hash (finishInput domain current proof.leafCount) = root := by
  unfold verify at h
  split at h
  · cases h
  rename_i hindex
  split at h
  · cases h
  · rename_i current hwalk
    exact ⟨by omega, current, hwalk, of_decide_eq_true h⟩

theorem prove_of_verify (hseparates : H.Separates
      (H.rootInputs domain chunks ++ H.verifyInputs domain' leafBytes proof))
    (hverify : H.verify domain' (H.rootOf domain chunks) leafBytes proof = true) :
    domain' = domain ∧ proof.leafCount = chunks.list.length ∧
      chunks.list[proof.index]? = some leafBytes ∧ H.prove chunks proof.index = some proof := by
  obtain ⟨hindex, current, hwalk, hroot⟩ := verify_ok hverify
  have hfinish : finishInput domain' current proof.leafCount ∈
      H.verifyInputs domain' leafBytes proof := by
    simp [verifyInputs, hwalk]
  obtain ⟨hdomain, hcurrent, hcount⟩ := finishInput_inj proof.counted chunks.counted
    (hseparates _ (mem_append_right _ hfinish) _
      (mem_append_left _ finishInput_mem_rootInputs) hroot)
  have hnonempty : chunks.list ≠ [] := List.ne_nil_of_length_pos (by omega)
  have hlength : (chunks.list.map H.leaf).length = proof.leafCount := by
    rw [length_map, hcount]
  -- the walk arrived at the top of the chunks' own tree
  obtain ⟨hleaf, hpath⟩ := Library.treeWalk_pins H.pad
    hseparates.node_injOn hlength.le (hlength.symm ▸ hindex)
    (fun pair hpair => mem_append_left _ (nodeInput_mem_rootInputs (hcount ▸ hpair)))
    (fun pair hpair => mem_append_right _ (by
      rw [hlength] at hpair
      simp only [verifyInputs, cons_append, mem_cons, mem_append, mem_map]
      exact .inr (.inl ⟨pair, hpair, rfl⟩)))
    (by rw [hlength]; exact hwalk) (by rw [hcount, treeOf_eq hnonempty, hcurrent])
  rw [getElem?_map] at hleaf
  obtain ⟨bytes, hbytes, hsame⟩ := Option.map_eq_some_iff.mp hleaf
  have hbytes' : leafInput bytes = leafInput leafBytes :=
    hseparates _ (mem_append_left _ (leafInput_mem_rootInputs (mem_of_getElem? hbytes)))
      _ (mem_append_right _ (by simp [verifyInputs])) hsame
  refine ⟨hdomain, hcount, by rw [hbytes, leafInput_inj hbytes'], ?_⟩
  rw [prove, if_neg (by omega)]
  dsimp only
  rw [hlength, hpath]
  cases proof
  cases hcount
  rfl

theorem rootOf_inj {chunks' : Chunks}
    (hseparates : H.Separates (H.rootInputs domain chunks ++ H.rootInputs domain' chunks'))
    (h : H.rootOf domain chunks = H.rootOf domain' chunks') :
    domain = domain' ∧ chunks = chunks' := by
  obtain ⟨hdomain, htree, hcount⟩ := finishInput_inj chunks.counted chunks'.counted
    (hseparates _ (mem_append_left _ finishInput_mem_rootInputs) _
      (mem_append_right _ finishInput_mem_rootInputs) h)
  refine ⟨hdomain, ?_⟩
  suffices hlist : chunks.list = chunks'.list by
    cases chunks
    cases chunks'
    cases hlist
    rfl
  by_cases hnonempty : chunks.list = []
  · have hempty' : chunks'.list = [] := length_eq_zero_iff.mp (by rw [← hcount, hnonempty]; rfl)
    rw [hnonempty, hempty']
  have hnonempty' : chunks'.list ≠ [] := fun hempty =>
    hnonempty (length_eq_zero_iff.mp (by rw [hcount, hempty]; rfl))
  have hlevels : chunks.list.map H.leaf = chunks'.list.map H.leaf := by
    refine Library.treeTop_inj H.pad hseparates.node_injOn (by simp) (by simpa using hcount)
      (fun pair hpair => mem_append_left _ (nodeInput_mem_rootInputs hpair))
      (fun pair hpair => mem_append_right _ (nodeInput_mem_rootInputs (hcount ▸ hpair))) ?_
    rw [treeOf_eq hnonempty, hcount, treeOf_eq hnonempty', htree]
  have hleaves : Set.InjOn H.leaf { bytes | leafInput bytes ∈
      H.rootInputs domain chunks ++ H.rootInputs domain' chunks' } :=
    fun _ hp _ hq heq => leafInput_inj (hseparates _ hp _ hq heq)
  exact Library.map_injOn hleaves
    (fun _ hbytes => mem_append_left _ (leafInput_mem_rootInputs hbytes))
    (fun _ hbytes => mem_append_right _ (leafInput_mem_rootInputs hbytes)) hlevels

end Hasher

/-- Every chunk's proof verifies; a proof that verifies, where no two of the inputs hashed
share a hash, is the one made for the chunk it names, and the root tells its chunks. -/
theorem merkle_proofs_bind (H : Hasher) (domain : Bytes) (chunks : Chunks) :
    (∀ index bytes, chunks.list[index]? = some bytes → ∃ proof, H.prove chunks index = some proof ∧
        H.verify domain (H.rootOf domain chunks) bytes proof = true) ∧ (∀ domain' leafBytes proof,
      H.Separates (H.rootInputs domain chunks ++ H.verifyInputs domain' leafBytes proof) →
      H.verify domain' (H.rootOf domain chunks) leafBytes proof = true →
      domain' = domain ∧ proof.leafCount = chunks.list.length ∧
        chunks.list[proof.index]? = some leafBytes ∧ H.prove chunks proof.index = some proof) ∧
    ∀ domain' chunks', H.Separates (H.rootInputs domain chunks ++ H.rootInputs domain' chunks') →
      H.rootOf domain chunks = H.rootOf domain' chunks' → domain' = domain ∧ chunks' = chunks := by
  refine ⟨fun index bytes h => Hasher.verify_prove domain h,
    fun _ _ _ hseparates hverify => Hasher.prove_of_verify hseparates hverify, ?_⟩
  intro domain' chunks' hseparates hroot
  obtain ⟨hdomain, hchunks⟩ := Hasher.rootOf_inj hseparates hroot
  exact ⟨hdomain.symm, hchunks.symm⟩

def threeChunks : Chunks := ⟨[[0], [1], [2]], by decide⟩

def lastProof : Proof :=
  ⟨2, 3, [testHasher.pad, testHasher.node (testHasher.leaf [0], testHasher.leaf [1])], by decide⟩

theorem three_chunks_bind :
    testHasher.verify [7] (testHasher.rootOf [7] threeChunks) [2] lastProof = true ∧
    testHasher.prove threeChunks 2 = some lastProof ∧
    ∀ chunks', testHasher.Separates (testHasher.rootInputs [7] threeChunks ++
        testHasher.rootInputs [7] chunks') →
      testHasher.rootOf [7] threeChunks = testHasher.rootOf [7] chunks' →
        chunks' = threeChunks := by
  have hverify :
      testHasher.verify [7] (testHasher.rootOf [7] threeChunks) [2] lastProof = true := by
    decide +kernel
  have hseparates : testHasher.Separates (testHasher.rootInputs [7] threeChunks ++
      testHasher.verifyInputs [7] [2] lastProof) := by
    decide +kernel
  obtain ⟨-, hsound, hinj⟩ := merkle_proofs_bind testHasher [7] threeChunks
  exact ⟨hverify, (hsound [7] [2] lastProof hseparates hverify).2.2.2,
    fun chunks' hseparates' hroot => (hinj [7] chunks' hseparates' hroot).2⟩

end HyperscaleVm.Hbor

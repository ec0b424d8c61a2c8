import HyperscaleVm.Effects.Wire.Graph
import HyperscaleVm.Effects.Admission.Authority

/-!
# The tree on the wire (`effects/src/intent.rs`)
-/

namespace HyperscaleVm.Effects.Wire

open Library Hbor Admission
open Library.Codec (Charges Shallow Same)

/-- `Intent`, each member as `SignedIntent` beside its wiring. -/
inductive Intent where
  | mk (header : IntentHeader) (accounts attestedBy : List Address) (nodes : List GraphNode)
      (sockets : List Socket) (gives : List ValueRef)
      (members : List (Intent × List Attestation × List Binding))

abbrev Member := Intent × List Attestation × List Binding

mutual

def Intent.unsigned : Intent → Admission.Intent
  | .mk header accounts attestedBy nodes sockets gives members =>
    .mk header accounts attestedBy nodes sockets gives (unsignedMembers members)

def unsignedMembers : List Member → List (Admission.Intent × List Binding)
  | [] => []
  | (intent, _, wiring) :: members => (intent.unsigned, wiring) :: unsignedMembers members

end

structure IntentTree where
  root : Intent
  instances : List InstanceMeta
  resources : List ResourceMeta

section Layer

variable (c : Wire Intent)

/-- `SignedIntent`, then the wiring. -/
def member : Wire Member :=
  ((nested ((nested c).seq (nested signatures))).seq (nested wiring)).iso
    (Equiv.prodAssoc Intent (List Attestation) (List Binding)).symm

def intentFields (h : c.width = 31) :
    Wire (IntentHeader × List Address × List Address × List GraphNode × List Socket ×
      List ValueRef × List Member) :=
  (nested intentHeader).seq ((nested (principals MAX_ACCOUNTS)).seq
    ((nested (principals MAX_ATTESTATIONS)).seq ((nested manifestGraph).seq ((nested sockets).seq
      ((nested gives).seq (nested (vec (some MAX_INTENTS) (member c) (by
        change 0 < c.width + 1 + 1
        omega))))))))

end Layer

def intentEquiv : Intent ≃ IntentHeader × List Address × List Address × List GraphNode ×
    List Socket × List ValueRef × List Member where
  toFun
    | .mk header accounts attestedBy nodes sockets gives members =>
      (header, accounts, attestedBy, nodes, sockets, gives, members)
  invFun fields := .mk fields.1 fields.2.1 fields.2.2.1 fields.2.2.2.1 fields.2.2.2.2.1
    fields.2.2.2.2.2.1 fields.2.2.2.2.2.2
  left_inv := by
    rintro ⟨⟩
    rfl
  right_inv _ := rfl

def intentLayer : Codec.Layer EncodeError DecodeError Intent 31 where
  over_ c h := (intentFields c h).iso intentEquiv
  width_eq _ _ := rfl
  contractive := by
    intro room c c' h h' hbelow
    have hmember : ∀ below < room, Same below (member c) (member c') := by
      intro below hlt
      have hsigned : ∀ lower < below, Same lower ((nested c).seq (nested signatures))
          ((nested c').seq (nested signatures)) := fun lower hlower =>
        (nested_same fun least hleast => hbelow least (hleast.trans (hlower.trans hlt))).seq .rfl
      exact ((nested_same hsigned).seq .rfl).iso
    have hwidth : (member c).width = (member c').width := by
      change c.width + 1 + 1 = c'.width + 1 + 1
      rw [h, h']
    apply Same.iso
    refine .seq .rfl (.seq .rfl (.seq .rfl (.seq .rfl (.seq .rfl (.seq .rfl ?_)))))
    exact nested_same fun below hlt =>
      sequence_same hwidth fun lower hlower => hmember lower (hlower.trans hlt)

def intent : Wire Intent := intentLayer.fix .depthExceeded .depthExceeded

theorem instanceMeta_wide : 0 < instanceMeta.width := by decide

theorem resourceMeta_wide : 0 < resourceMeta.width := by decide

def intentTree : Wire IntentTree :=
  ((nested intent).seq ((nested (vec (some MAX_MANIFEST_NODES) instanceMeta instanceMeta_wide)).seq
    (nested (vec (some MAX_MANIFEST_NODES) resourceMeta resourceMeta_wide)))).iso
    { toFun := fun tree => (tree.root, tree.instances, tree.resources)
      invFun := fun fields => ⟨fields.1, fields.2.1, fields.2.2⟩ }

def MAX_VALUE_WIRE_DEPTH : ℕ := 2 * MAX_VALUE_DEPTH

def TREE_WIRE_DEPTH : ℕ := 6 + MAX_VALUE_WIRE_DEPTH + 4 * (MAX_TREE_DEPTH - 1)

def checkShape (tree : IntentTree) : Except AdmissionError Unit := do
  let flat ← flatten tree.root.unsigned
  tryAll (fun intent => checkValueDepth intent.nodes) flat.intents
  checkInstanceRecords configBytes tree.instances

/-- `encode_tree`, whose refusal is the panic. -/
def encodeTree (tree : IntentTree) : Except EncodeError Bytes :=
  intentTree.encode TREE_WIRE_DEPTH tree

inductive TreeDecodeError where
  | decode (source : DecodeError)
  | shape (source : AdmissionError)

def decodeTree (bytes : Bytes) : Except TreeDecodeError IntentTree := do
  let tree ← (fromSliceWithDepth intentTree bytes TREE_WIRE_DEPTH).mapError .decode
  (checkShape tree).mapError .shape
  return tree

end HyperscaleVm.Effects.Wire

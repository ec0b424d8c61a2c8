import HyperscaleVm.Effects.Admission.Fills

/-!
# The edges of an accepted tree (`effects/src/admission/order.rs`, `node.rs`, `edge.rs`)
-/

namespace HyperscaleVm.Effects.Admission
open List Option Library

def Interleaved.PlacedAt (s : Interleaved) (node : ℕ × ℕ) (place : ℕ) : Prop :=
  ((s.flatOf[node.1]?).bind fun flat => flat[node.2]?) = some place ∧ s.order[place]? = some node

def ComesAfter (intents : List IntentView) (node before : ℕ × ℕ) : Prop :=
  (before.1 = node.1 ∧ before.2 < node.2) ∨ ∃ view call, intents[node.1]? = some view ∧
    view.nodes[node.2]? = some call ∧ before ∈ waitsOn view call

structure Interleaved.Ordered (intents : List IntentView) (s : Interleaved) : Prop where
  placed : s.Placed intents
  found : ∀ node ∈ s.order, ∃ view call, intents[node.1]? = some view ∧
    view.nodes[node.2]? = some call
  before : ∀ (j : ℕ) (node : ℕ × ℕ), s.order[j]? = some node → ∀ other,
    ComesAfter intents node other → ∃ place < j, s.PlacedAt other place

section

variable {intents : List IntentView} {s s' : Interleaved} {node : ℕ × ℕ}

theorem Interleaved.Placed.placedAt (h : s.Placed intents)
    (hnode : s.Emitted node.1 node.2) : ∃ place < s.order.length, s.PlacedAt node place := by
  obtain ⟨place, hplace, horder⟩ := h.placed node.1 node.2 hnode
  exact ⟨place, (List.getElem?_eq_some_iff.mp horder).1, hplace, horder⟩

theorem Interleaved.Emits.placedAt (e : s.Emits intents s') (h : s.Placed intents) {place : ℕ}
    (hplace : s.PlacedAt node place) : s'.PlacedAt node place := by
  obtain ⟨hflat, horder⟩ := hplace
  refine ⟨?_, ?_⟩
  · obtain ⟨next, hnext, hlt⟩ := h.emitted node (mem_of_getElem? horder)
    obtain ⟨flat, hof, hlocal⟩ := bind_eq_some_iff.mp hflat
    rw [e.flatOf, List.getElem?_modify]
    by_cases hi : e.index = node.1
    · have hnext' : e.next = next := by
        have hfrom := e.nextFrom
        rw [hi] at hfrom
        exact some.inj (hfrom.symm.trans hnext)
      have hne : e.next ≠ node.2 := by omega
      simp [hi, hof, hne, hlocal]
    · simp [hi, hof, hlocal]
  · rw [e.order]
    exact getElem?_of_prefix (prefix_append _ _) horder

theorem Interleaved.Emits.ordered (e : s.Emits intents s') (h : s.Ordered intents) :
    s'.Ordered intents where
  placed := e.placed h.placed
  found node hnode := by
    rw [e.order, mem_append, mem_singleton] at hnode
    rcases hnode with hold | rfl
    · exact h.found node hold
    · exact ⟨e.view, e.node, e.viewFrom, e.nodeFrom⟩
  before j node hj other hafter := by
    rw [e.order] at hj
    rcases getElem?_concat_some.mp hj with hj | ⟨rfl, rfl⟩
    · obtain ⟨place, hplace, hat⟩ := h.before j node hj other hafter
      exact ⟨place, hplace, e.placedAt h.placed hat⟩
    · have hemitted : s.Emitted other.1 other.2 := by
        rcases hafter with ⟨hsame, hlt⟩ | ⟨view, call, hview, hcall, hwaits⟩
        · exact ⟨e.next, hsame ▸ e.nextFrom, hlt⟩
        · obtain rfl := some.inj (e.viewFrom.symm.trans hview)
          obtain rfl := some.inj (e.nodeFrom.symm.trans hcall)
          exact e.waited other hwaits
      obtain ⟨place, hplace, hat⟩ := h.placed.placedAt hemitted
      exact ⟨place, by omega, e.placedAt h.placed hat⟩

end

def IntentView.producer (view : IntentView) (intent : ℕ) : ValueRef → Option Produced
  | .edge edge => some ⟨intent, edge⟩
  | .give give => view.give give
  | .socket socket =>
    match view.fills[socket]? with
    | some (.value produced _) => some produced
    | _ => none

/-- The constraints a reference is bound under: for a socket its own and those of every
socket its value passed through, beside what the argument asks. -/
def IntentView.constraints (view : IntentView) (asked : List Constraint) :
    ValueRef → List Constraint
  | .socket socket =>
    match view.sockets[socket]?, view.fills[socket]? with
    | some (.value _ declared), some (.value _ through) => declared ++ through ++ asked
    | _, _ => asked
  | _ => asked

section

variable {H : Hasher} {S : Setting H} {view : IntentView} {intent local_ node param : ℕ}

def Edges.tally (edges : Edges) (source output : ℕ) : ℕ :=
  ((edges.consumed[source]?).bind fun counts => counts[output]?).getD 0

variable {edges edges' : Edges} {place : ℕ} {paramType : ParamType} {value : Value}
  {input : NodeInput}

def NodeInput.names (source output : ℕ) : NodeInput → Bool
  | .edge source' output' _ _ _ => decide (source' = source) && decide (output' = output)
  | .literal _ => false

def Edges.Shaped (edges : Edges) : Prop :=
  ∀ (place : ℕ) (outputs : List (ResourceAddr × EdgeContent)),
    edges.outputs[place]? = some outputs →
      ∃ counts, edges.consumed[place]? = some counts ∧ counts.length = outputs.length

theorem Edges.Shaped.consume (h : edges.Shaped) (source output : ℕ) :
    (edges.consume source output).Shaped := by
  intro place outputs houtputs
  obtain ⟨counts, hcounts, hlen⟩ := h place outputs houtputs
  by_cases hp : source = place
  · exact ⟨counts.modify output (· + 1), by simp [Edges.consume, hp, hcounts],
      by simpa using hlen⟩
  · exact ⟨counts, by simp [Edges.consume, hp, hcounts], hlen⟩

variable {bound : Bound}

end

section

variable {H : Hasher} {S : Setting H}

variable {w w' : Walked}

variable {order : List (ℕ × ℕ)}

end

end HyperscaleVm.Effects.Admission

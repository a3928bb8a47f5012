import FlowFacts.Proofs.Graph.Postorder
import FlowFacts.Proofs.Program.History

/-!
# Reachability in control-flow graphs

A search from a node follows successors, a search in the inverse graph follows predecessors, and
each stops as soon as it comes to the node that it looks for. Both lists of a node tell of the same
edges, whatever edits the graph was made by, so the two searches between a pair of nodes agree, and
they agree with the paths along successors (`ControlGraph.reaches_iff_path`).
-/

namespace FlowFacts.ControlGraph

variable {σ : Type}

/-- Whatever edits a graph was made by, it can be told of any two of its nodes whether one leads to
the other: it does if there is a path along successors, also one without any edge. In the inverse
graph the search from the other end has the same answer. -/
theorem reaches_iff_path (edits : List (Edit σ)) {a b : NodeId} (ha : a ∈ (ofEdits edits).nodes)
    (hb : b ∈ (ofEdits edits).nodes) :
    ∃ answer, (ofEdits edits).toGraph.reaches a b = .ok answer ∧
      (ofEdits edits).toGraph.inverse.reaches b a = .ok answer ∧
      (answer = true ↔ ∃ passed, (ofEdits edits).toGraph.Path a passed b) := by
  have wf := wellFormed_ofEdits edits
  obtain ⟨answer, hanswer, hiff⟩ := wf.exists_reaches ha b
  exact ⟨answer, hanswer, (wf.reaches_inverse ha hb).trans hanswer, hiff⟩

/-- A loop of two nodes, of which the second one also leads to itself, with two ways into it. An
edge out of it, to a node that is made only afterwards, was refused. -/
def waysIn : List (Edit Unit) :=
  [.push (), .push (), .push (), .connect ⟨2⟩ ⟨3⟩, .push (),
    .connectChain [⟨0⟩, ⟨1⟩, ⟨2⟩, ⟨2⟩, ⟨1⟩], .connect ⟨3⟩ ⟨2⟩]

theorem reaches_iff_path_waysIn :
    (∃ passed, (ofEdits waysIn).toGraph.Path ⟨0⟩ passed ⟨2⟩) ∧
      (ofEdits waysIn).toGraph.inverse.reaches ⟨2⟩ ⟨0⟩ = .ok true ∧
      (¬ ∃ passed, (ofEdits waysIn).toGraph.Path ⟨2⟩ passed ⟨3⟩) ∧
      (ofEdits waysIn).toGraph.inverse.reaches ⟨3⟩ ⟨2⟩ = .ok false := by
  have made : ∀ v ∈ ([⟨0⟩, ⟨2⟩, ⟨3⟩] : List NodeId), v ∈ (ofEdits waysIn).nodes := by decide
  obtain ⟨there, hthere, back, path⟩ :=
    reaches_iff_path waysIn (made ⟨0⟩ (by decide)) (made ⟨2⟩ (by decide))
  obtain ⟨out, hout, outBack, pathOut⟩ :=
    reaches_iff_path waysIn (made ⟨2⟩ (by decide)) (made ⟨3⟩ (by decide))
  have reached : (ofEdits waysIn).toGraph.reaches ⟨0⟩ ⟨2⟩ = .ok true := by decide +kernel
  have missed : (ofEdits waysIn).toGraph.reaches ⟨2⟩ ⟨3⟩ = .ok false := by decide +kernel
  cases hthere.symm.trans reached
  cases hout.symm.trans missed
  exact ⟨path.1 rfl, back, fun found => Bool.false_ne_true (pathOut.2 found), outBack⟩

end FlowFacts.ControlGraph

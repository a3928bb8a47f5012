import FlowFacts.Proofs.Dataflow.Convergence
import FlowFacts.Proofs.Dataflow.VisitOrder
import FlowFacts.Proofs.Equations.Stages

/-!
# No change is missed

A worklist must not lose track of a node whose sources have changed. In every state that its loop
comes through (`Loop.ComesThrough`), the nodes that wait are exactly those marked as waiting, none
waits twice, and the input of any other node is what its sources make of it (`Equations.Attentive`).
Transfer functions need only leave the inputs alone and announce each change (`Analysis.Announces`):
how facts meet, and what is computed from them, is up to the analysis
(`Analysis.collected_of_comesThrough`).
-/

namespace FlowFacts

namespace Equations

variable {n : Nat} {F : Type} {E : Equations n F}

/-- The nodes that wait are known, and no source of any other node has changed since its input was
collected. -/
structure Attentive (E : Equations n F) (w : Worklist n F) : Prop where
  exact : w.Exact
  consistent : E.Consistent w

theorem Attentive.queued_iff {w : Worklist n F} (h : E.Attentive w) (i : Fin n) :
    w.queued.get i = true ↔ i ∈ w.queue :=
  ⟨h.consistent.queued i, h.exact.waits i⟩

theorem attentive_firstVisit {order : List (Fin n)} (nodup : order.Nodup)
    (covers : ∀ i, i ∈ order) : E.Attentive (E.firstVisit order) :=
  ⟨Worklist.exact_firstVisit nodup, consistent_firstVisit covers⟩

variable [LE F] [DecidableLE F] [DecidableEq F] {check : Bool}

theorem Attentive.visitNext (honest : E.Honest check) (wired : E.Wired) {w next : Worklist n F}
    (h : E.Attentive w) (waits : w.queue ≠ []) (hstep : E.visitNext check w = (next, none)) :
    E.Attentive next :=
  ⟨h.exact.visitNext waits hstep, h.consistent.visitNext honest wired waits hstep⟩

theorem attentive_of_comesThrough (honest : E.Honest check) (wired : E.Wired) {order : List (Fin n)}
    (horder : E.order = .ok order) (nodup : order.Nodup) {w : Worklist n F}
    (h : (E.visitLoop check).ComesThrough (E.firstVisit order) w) : E.Attentive w := by
  apply h.invariant (I := E.Attentive)
  · intro w next attentive hresult hstep
    exact attentive.visitNext honest wired (waits_of_result hresult) hstep
  · exact attentive_firstVisit nodup (wired.covers horder)

end Equations

namespace Analysis

variable {ν F : Type} [DecidableEq ν] {a : Analysis ν F} {g : Graph ν} {boundary : Fin g.size}

/-- At the nodes of the graph, the transfer function leaves the input side alone, and if it changes
the output side, it says so. -/
structure Announces (a : Analysis ν F) (g : Graph ν) : Prop where
  keeps : ∀ v ∈ g.nodes, ∀ sides, (a.transferSides v sides).1.input = sides.input
  report : ∀ v ∈ g.nodes, ∀ sides, (a.transferSides v sides).1.output ≠ sides.output →
    (a.transferSides v sides).2 = .changed

variable [LE F] [DecidableLE F] [DecidableEq F] {check : Bool}

theorem Announces.honest (announces : a.Announces g) : (a.equations g boundary).Honest check := by
  intro store i v hv _
  obtain ⟨-, -, -, htransfer⟩ := Equations.visit_eq_ok_iff.1 hv
  have transferred : a.transferSides (g.node i) v.found = (v.left, v.report) := htransfer
  have keeps := announces.keeps _ (Graph.node_mem i) v.found
  have report := announces.report _ (Graph.node_mem i) v.found
  rw [transferred] at keeps report
  refine ⟨keeps, fun quiet => Decidable.byContradiction fun changed => ?_⟩
  cases quiet.symm.trans (report changed)

/-- However often the worklist has visited nodes: no node waits twice, the nodes that wait are those
marked as waiting, and every other node, save for the boundary, has for its input the meet over the
present outputs of its sources. -/
theorem collected_of_comesThrough (wf : g.WellFormed) (announces : a.Announces g)
    (boundary : Fin g.size) (check : Bool) :
    ∃ order, (a.equations g boundary).order = .ok order ∧
      ∀ w, ((a.equations g boundary).visitLoop check).ComesThrough
          ((a.equations g boundary).firstVisit order) w →
        w.queue.Nodup ∧ (∀ i, w.queued.get i = true ↔ i ∈ w.queue) ∧
        ∀ i, i ∉ w.queue → i ≠ boundary → ∃ sources : List (Fin g.size),
          (a.direction.flow g).parents (g.node i) = .ok (sources.map g.node) ∧
          (w.progress.store.get i).input =
            sources.foldl (fun target j => a.meet (w.progress.store.get j).output target)
              a.initial := by
  obtain ⟨order, horder, nodup⟩ := wf.exists_visitOrder a.direction boundary
  refine ⟨order, horder, fun w h => ?_⟩
  have attentive :=
    Equations.attentive_of_comesThrough announces.honest (wired_equations wf) horder nodup h
  refine ⟨attentive.exact.nodup, attentive.queued_iff, fun i off inner => ?_⟩
  obtain ⟨sources, hs, hparents⟩ := exists_sources a boundary wf i
  have collected :
      (a.equations g boundary).gather w.progress.store i = .ok (w.progress.store.get i).input :=
    (attentive.consistent.settled i off).1
  rw [Equations.gather_of_ne inner, hs] at collected
  exact ⟨sources, hparents, (Except.ok.inj collected).symm⟩

theorem announces_lastReported (g : Graph Nat) : lastReported.Announces g where
  keeps _ _ _ := rfl
  report _ _ _ changed := Change.ofBool_eq_changed_iff.2 (bne_iff_ne.2 changed)

/-- The equations of `lastReported` over `spinning`, which is visited from 0. -/
def lastReportedSpinning : Equations 3 Nat := lastReported.equations spinning ⟨0, by decide⟩

/-- When each node has been visited, the one with an edge to itself waits again, and has not
collected yet what it reports. Its child has. -/
theorem collected_spinning :
    ∃ w, (lastReportedSpinning.visitLoop true).ComesThrough
        (lastReportedSpinning.firstVisit [0, 1, 2]) w ∧
      w.queue = [1] ∧ (w.progress.store.get 1).input = 0 ∧ (w.progress.store.get 1).output = 3 ∧
      (w.progress.store.get 2).input = 3 := by
  obtain ⟨order, horder, collected⟩ :=
    collected_of_comesThrough (g := spinning) (by decide) (announces_lastReported spinning)
      ⟨0, by decide⟩ true
  have inOrder : lastReportedSpinning.order = .ok [0, 1, 2] := by decide +kernel
  cases horder.symm.trans inOrder
  have begun : (lastReportedSpinning.visitLoop true).ComesThrough
      (lastReportedSpinning.firstVisit [0, 1, 2]) _ :=
    .start
  have first := begun.step (by decide +kernel) (Prod.ext rfl (by decide +kernel))
  have second := first.step (by decide +kernel) (Prod.ext rfl (by decide +kernel))
  have third := second.step (by decide +kernel) (Prod.ext rfl (by decide +kernel))
  obtain ⟨-, -, settled⟩ := collected _ third
  obtain ⟨sources, hparents, hinput⟩ := settled ⟨2, by decide⟩ (by decide +kernel) (by decide)
  have twice : sources.map spinning.node = [1, 1] := Except.ok.inj hparents.symm
  obtain rfl : sources = [⟨1, by decide⟩, ⟨1, by decide⟩] :=
    List.map_injective_iff.2 (Graph.node_injective (by decide)) twice
  refine ⟨_, third, by decide +kernel, by decide +kernel, by decide +kernel, hinput.trans ?_⟩
  decide +kernel

end Analysis

end FlowFacts

import Mathlib.Order.Lattice.Nat
import FlowFacts.Proofs.Dataflow.Numbering

/-!
# Least solutions of an analysis

`Analysis.Accumulates` are the analyses that join facts and transfer them by monotone functions, and
`Analysis.Solves` says of facts for the nodes of a graph that they solve the equations of such an
analysis: at the boundary comes in what the analysis says, elsewhere the join of the outputs of the
flow sources, and the output is the transfer function of the input. Whatever the settings, a result
has the least facts that do, so the two strategies agree.
-/

namespace FlowFacts

namespace Graph

variable {ν α : Type} [DecidableEq ν] {g : Graph ν}

/-- Values for numbers as values for nodes, with one value for what is not a node. -/
def byNode (g : Graph ν) (values : Fin g.size → α) (other : α) (v : ν) : α :=
  match g.number v with
  | .ok i => values i
  | .error _ => other

@[simp] theorem byNode_node (nodup : g.nodes.Nodup) (values : Fin g.size → α) (other : α)
    (i : Fin g.size) : g.byNode values other (g.node i) = values i := by
  rw [byNode, number_node nodup]

end Graph

namespace Analysis

/-- The facts of a solution are those of the store that it was made from. -/
theorem exists_facts {ν F : Type} [DecidableEq ν] {g : Graph ν} (a : Analysis ν F)
    (nodup : g.nodes.Nodup) (store : Store g.size F) (stats : Stats) :
    ∃ X : ν → Sides F, (∀ i, X (g.node i) = store.get i) ∧
      ∀ v ∈ g.nodes, Solution.facts? ⟨g.factsOf a.direction store, stats⟩ v =
        some (a.direction.place (X v)) := by
  have hnode := Graph.byNode_node nodup store.get ⟨a.initial, a.initial⟩
  refine ⟨g.byNode store.get ⟨a.initial, a.initial⟩, hnode, Graph.forall_node.2 fun i => ?_⟩
  rw [hnode, facts?_factsOf nodup]

variable {ν F : Type} {a : Analysis ν F} {g : Graph ν} {f : ν → F → F} [SemilatticeSup F]

/-- Facts are joined, from a least fact on. At the nodes of the graph, the transfer function leaves
the input side alone, joins a monotone function of it to the output side, and reports exactly
whether that changed the output side. -/
structure Accumulates (a : Analysis ν F) (g : Graph ν) (f : ν → F → F) : Prop where
  initial_le : ∀ x, a.initial ≤ x
  meet_eq : ∀ fact target, a.meet fact target = target ⊔ fact
  monotone : ∀ v ∈ g.nodes, Monotone (f v)
  transfer_eq : ∀ v ∈ g.nodes, ∀ sides,
    (a.transferSides v sides).1 = ⟨sides.input, sides.output ⊔ f v sides.input⟩
  report_iff : ∀ v ∈ g.nodes, ∀ sides, (a.transferSides v sides).2 = .changed ↔
    (a.transferSides v sides).1.output ≠ sides.output

/-- The equations between the facts of the nodes of a graph. The boundary is where the flow graph is
entered. -/
structure Solves (a : Analysis ν F) (g : Graph ν) (f : ν → F → F) (X : ν → Sides F) : Prop where
  boundary : ∀ v, (a.direction.flow g).entry = .ok v → (X v).input = a.boundary
  input : ∀ v ∈ g.nodes, (a.direction.flow g).entry ≠ .ok v →
    ∀ us, (a.direction.flow g).parents v = .ok us →
      IsLUB ((fun u => (X u).output) '' {u | u ∈ us}) (X v).input
  output : ∀ v ∈ g.nodes, (X v).output = f v (X v).input

variable [DecidableEq ν] {boundary : Fin g.size}

theorem Accumulates.equations (acc : a.Accumulates g f) :
    (a.equations g boundary).Accumulates fun i => f (g.node i) where
  initial_le := acc.initial_le
  meet_eq := acc.meet_eq
  monotone i := acc.monotone _ (Graph.node_mem i)
  transfer_eq i := acc.transfer_eq _ (Graph.node_mem i)
  report_iff i := acc.report_iff _ (Graph.node_mem i)

/-- The equations between the facts of the nodes are those between the facts of the numbers. -/
theorem solves_iff (wf : g.WellFormed)
    (hentry : (a.direction.flow g).entry = .ok (g.node boundary)) {X : ν → Sides F} :
    a.Solves g f X ↔
      (a.equations g boundary).Solves (fun i => f (g.node i)) fun i => X (g.node i) := by
  have boundary_iff : ∀ i, (a.direction.flow g).entry = .ok (g.node i) ↔ i = boundary := by
    intro i
    rw [hentry, Except.ok.injEq, (Graph.node_injective wf.nodup).eq_iff, eq_comm]
  have outputs : ∀ sources : List (Fin g.size),
      (fun u => (X u).output) '' {u | u ∈ sources.map g.node} =
        (fun j => (X (g.node j)).output) '' {j | j ∈ sources} := by
    intro sources
    ext x
    simp
  constructor
  · intro solves
    refine ⟨solves.boundary _ hentry, fun i hi sources hs => ?_, fun i => ?_⟩
    · rw [sources_equations_iff wf.nodup] at hs
      rw [← outputs]
      exact solves.input _ (Graph.node_mem i) (mt (boundary_iff i).1 hi) _ hs
    · exact solves.output _ (Graph.node_mem i)
  · intro solves
    refine ⟨fun v hv => ?_, fun v hv hne us hus => ?_, fun v hv => ?_⟩
    · cases hentry.symm.trans hv
      exact solves.boundary
    · obtain ⟨i, rfl⟩ := Graph.exists_node hv
      obtain ⟨sources, hs, hparents⟩ := exists_sources a boundary wf i
      cases hus.symm.trans hparents
      rw [outputs]
      exact solves.input i (mt (boundary_iff i).2 hne) sources hs
    · obtain ⟨i, rfl⟩ := Graph.exists_node hv
      exact solves.output i

variable [DecidableLE F] [DecidableEq F]

/-- Two results, under whatever settings, have the same facts. -/
theorem facts?_eq_of_solve (wf : g.WellFormed) (acc : a.Accumulates g f)
    {settings settings' : Settings} {s s' : Solution ν F}
    (h : (a.solve settings g).outcome = .ok s) (h' : (a.solve settings' g).outcome = .ok s')
    {v : ν} (hv : v ∈ g.nodes) : s'.facts? v = s.facts? v := by
  obtain ⟨boundary, last, tally, hb, hrun, rfl⟩ := solve_eq_ok h
  obtain ⟨boundary', last', tally', hb', hrun', rfl⟩ := solve_eq_ok h'
  cases hb.symm.trans hb'
  obtain ⟨solves, least⟩ := Equations.isLeast_solve acc.equations (wired_equations wf) hrun
  obtain ⟨solves', least'⟩ := Equations.isLeast_solve acc.equations (wired_equations wf) hrun'
  obtain ⟨i, rfl⟩ := Graph.exists_node hv
  rw [facts?_factsOf wf.nodup, facts?_factsOf wf.nodup]
  have hinput := le_antisymm (least' _ solves i).1 (least _ solves' i).1
  have houtput := le_antisymm (least' _ solves i).2 (least _ solves' i).2
  have same : last'.store.get i = last.store.get i := Sides.ext hinput houtput
  rw [same]

/-- Whatever the strategy, the limit and the checks: a result has facts for every node, these solve
the equations, no solution is smaller anywhere, and any other result has the same facts. -/
theorem least_solution_of_solve (wf : g.WellFormed) (acc : a.Accumulates g f)
    {settings : Settings} {s : Solution ν F} (h : (a.solve settings g).outcome = .ok s) :
    (∃ X : ν → Sides F, (∀ v ∈ g.nodes, s.facts? v = some (a.direction.place (X v))) ∧
      a.Solves g f X ∧ ∀ Y, a.Solves g f Y →
        ∀ v ∈ g.nodes, (X v).input ≤ (Y v).input ∧ (X v).output ≤ (Y v).output) ∧
      ∀ settings' s', (a.solve settings' g).outcome = .ok s' →
        ∀ v ∈ g.nodes, s'.facts? v = s.facts? v := by
  refine ⟨?_, fun settings' s' h' v hv => facts?_eq_of_solve wf acc h h' hv⟩
  obtain ⟨boundary, last, tally, hb, hrun, rfl⟩ := solve_eq_ok h
  have hentry := (Graph.boundary_eq_ok hb).1
  obtain ⟨solves, least⟩ := Equations.isLeast_solve acc.equations (wired_equations wf) hrun
  have hnode := Graph.byNode_node wf.nodup last.store.get ⟨a.initial, a.initial⟩
  refine ⟨g.byNode last.store.get ⟨a.initial, a.initial⟩, fun v hv => ?_, ?_, fun Y hY v hv => ?_⟩
  · obtain ⟨i, rfl⟩ := Graph.exists_node hv
    rw [hnode, facts?_factsOf wf.nodup]
  · rw [solves_iff wf hentry]
    simpa only [hnode] using solves
  · obtain ⟨i, rfl⟩ := Graph.exists_node hv
    rw [hnode]
    exact least _ ((solves_iff wf hentry).1 hY) i

/-- How many nodes control can have passed on the way out of a node, counted up to three. -/
def passedNodes : Analysis Nat Nat where
  name := "passed nodes"
  direction := .forward
  boundary := 0
  initial := 0
  meet fact target := max target fact
  transfer _ facts :=
    let after := max facts.after (min 3 (facts.before + 1))
    (⟨facts.before, after⟩, .ofBool (after != facts.after))

theorem accumulates_passedNodes (g : Graph Nat) :
    passedNodes.Accumulates g fun _ passed => min 3 (passed + 1) where
  initial_le := Nat.zero_le
  meet_eq _ _ := rfl
  monotone _ _ _ _ h := by dsimp only; omega
  transfer_eq _ _ _ := rfl
  report_iff _ _ _ := Change.ofBool_eq_changed_iff.trans bne_iff_ne

/-- A loop of one node, between an entry and an exit that is reached along parallel edges. -/
def spinning : Graph Nat where
  nodes := [0, 1, 2]
  entry := .ok 0
  exit := .ok 2
  children
    | 0 => .ok [1]
    | 1 => .ok [1, 2, 2]
    | _ => .ok []
  parents
    | 1 => .ok [0, 1]
    | 2 => .ok [1, 1]
    | _ => .ok []

theorem least_solution_spinning :
    ∃ s, (passedNodes.solve {} spinning).outcome = .ok s ∧
      (∃ X : Nat → Sides Nat,
        (∀ v ∈ spinning.nodes, s.facts? v = some ⟨(X v).input, (X v).output⟩) ∧
        passedNodes.Solves spinning (fun _ passed => min 3 (passed + 1)) X) ∧
      ∀ settings s', (passedNodes.solve settings spinning).outcome = .ok s' →
        ∀ v ∈ spinning.nodes, s'.facts? v = s.facts? v := by
  obtain ⟨s, h⟩ : ∃ s, (passedNodes.solve {} spinning).outcome = .ok s :=
    exists_eq_ok (by decide +kernel)
  obtain ⟨⟨X, facts, solves, -⟩, agree⟩ :=
    least_solution_of_solve (by decide) (accumulates_passedNodes spinning) h
  exact ⟨s, h, ⟨X, facts, solves⟩, agree⟩

end Analysis

end FlowFacts

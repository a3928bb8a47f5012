import FlowFacts.Proofs.Dataflow.LeastSolution

/-!
# Facts along paths

Along a flow path the transfer functions of the nodes that it leaves turn the fact that the path
starts from into one that it arrives with (`Analysis.pathFact`). A path may start at any node of the
graph. The input of a node is at least what every path arrives with (`Analysis.Solves.le_input`).
Where transfer functions preserve joins it is the least fact of which this holds, since it is a
finite join of such facts (`Analysis.closed_supClosure`).
-/

namespace FlowFacts

namespace Graph

variable {ν : Type} [DecidableEq ν] {g : Graph ν} {d : Direction} {boundary : Fin g.size}

theorem ne_boundary_of_flow (wf : g.WellFormed) (hb : g.boundary d = .ok boundary) {u v : ν}
    (hu : u ∈ g.nodes) (edge : (d.flow g).Edge u v) : v ≠ g.node boundary := by
  rintro rfl
  have back : (d.flow g).inverse.Edge (g.node boundary) u :=
    ((wf.flow d).edge_inverse u (by simpa using hu) _ (by simp [node_mem])).2 edge
  exact List.not_mem_nil ((edge_iff (g := (d.flow g).inverse) (boundary_eq_ok hb).2).1 back)

end Graph

namespace Analysis

variable {ν F : Type} [DecidableEq ν] {a : Analysis ν F} {g : Graph ν} {f : ν → F → F}

/-- The fact that a path starts from: what comes in at the boundary, and the initial fact
elsewhere. -/
def startAt (a : Analysis ν F) (g : Graph ν) (u : ν) : F :=
  match (a.direction.flow g).entry with
  | .ok v => if u = v then a.boundary else a.initial
  | .error _ => a.initial

/-- The fact that a path arrives with, given where it starts and the nodes that it leaves. -/
def pathFact (a : Analysis ν F) (g : Graph ν) (f : ν → F → F) (u : ν) (passed : List ν) : F :=
  passed.foldl (fun x m => f m x) (a.startAt g u)

/-- What the paths arrive with that lead from anywhere in the graph to a node. -/
def pathFacts (a : Analysis ν F) (g : Graph ν) (f : ν → F → F) (v : ν) : Set F :=
  {x | ∃ u ∈ g.nodes, ∃ passed, (a.direction.flow g).Path u passed v ∧ a.pathFact g f u passed = x}

section

variable {u v w : ν}

theorem startAt_entry (h : (a.direction.flow g).entry = .ok v) : a.startAt g v = a.boundary := by
  simp [startAt, h]

theorem startAt_of_ne (h : (a.direction.flow g).entry = .ok v) (hne : u ≠ v) :
    a.startAt g u = a.initial := by
  simp [startAt, h, hne]

theorem startAt_mem_pathFacts (hv : v ∈ g.nodes) : a.startAt g v ∈ a.pathFacts g f v :=
  ⟨v, hv, [], .nil v, rfl⟩

theorem transfer_mem_pathFacts (edge : (a.direction.flow g).Edge v w) {x : F}
    (hx : x ∈ a.pathFacts g f v) : f v x ∈ a.pathFacts g f w := by
  obtain ⟨u, hu, passed, path, rfl⟩ := hx
  exact ⟨u, hu, passed ++ [v], path.snoc edge, by rw [pathFact, List.foldl_concat, pathFact]⟩

end

variable [SemilatticeSup F] {boundary : Fin g.size}

/-- In facts that solve the equations, no path arrives with more than the input. -/
theorem Solves.le_input {X : ν → Sides F} (solves : a.Solves g f X) (wf : g.WellFormed)
    (hb : g.boundary a.direction = .ok boundary) (monotone : ∀ v ∈ g.nodes, Monotone (f v))
    {u v : ν} {passed : List ν} (path : (a.direction.flow g).Path u passed v) (hu : u ∈ g.nodes)
    {x : F} (hx : x ≤ (X u).input) : passed.foldl (fun x m => f m x) x ≤ (X v).input := by
  -- From the front of the path: what has come so far is within the input of the node where it is.
  induction path generalizing x with
  | nil => exact hx
  | @cons u v w passed edge _ ih =>
    have hv : v ∈ g.nodes := by
      simpa using (wf.flow a.direction).mem_of_edge (by simpa using hu) edge
    have apart : (a.direction.flow g).entry ≠ .ok v := by
      rw [(Graph.boundary_eq_ok hb).1, ne_eq, Except.ok.injEq]
      exact (Graph.ne_boundary_of_flow wf hb hu edge).symm
    obtain ⟨us, hus, hmem⟩ := ((wf.flow a.direction).edge_inverse u (by simpa using hu) v
      (by simpa using hv)).2 edge
    refine ih hv ?_
    calc f u x ≤ f u (X u).input := monotone u hu hx
      _ = (X u).output := (solves.output u hu).symm
      _ ≤ (X v).input := (solves.input v hv apart us hus).1 ⟨u, hmem, rfl⟩

theorem Solves.mem_upperBounds {X : ν → Sides F} (solves : a.Solves g f X) (acc : a.Accumulates g f)
    (wf : g.WellFormed) (hb : g.boundary a.direction = .ok boundary) (v : ν) :
    (X v).input ∈ upperBounds (a.pathFacts g f v) := by
  rintro _ ⟨u, hu, passed, path, rfl⟩
  have hentry := (Graph.boundary_eq_ok hb).1
  refine solves.le_input wf hb acc.monotone path hu ?_
  by_cases h : u = g.node boundary
  · rw [h, startAt_entry hentry, solves.boundary _ hentry]
  · rw [startAt_of_ne hentry h]
    exact acc.initial_le _

/-- Where transfer functions preserve joins, the equations do not lead out of the finite joins of
facts that paths arrive with. -/
theorem closed_supClosure (wf : g.WellFormed) (hb : g.boundary a.direction = .ok boundary)
    (joins : ∀ v ∈ g.nodes, ∀ x y, f v (x ⊔ y) = f v x ⊔ f v y) :
    (a.equations g boundary).Closed (fun i => f (g.node i))
      fun i => supClosure (a.pathFacts g f (g.node i)) := by
  have hentry := (Graph.boundary_eq_ok hb).1
  have start : ∀ i, a.startAt g (g.node i) ∈ supClosure (a.pathFacts g f (g.node i)) := fun i =>
    subset_supClosure (startAt_mem_pathFacts (Graph.node_mem i))
  refine ⟨?_, fun i hi => ?_, fun i => supClosed_supClosure, fun i hi sources hs j hj x hx => ?_⟩
  · have entered := start boundary
    rwa [startAt_entry hentry] at entered
  · have apart := start i
    rwa [startAt_of_ne hentry (mt (@Graph.node_injective _ g wf.nodup i boundary) hi)] at apart
  · rw [sources_equations_iff wf.nodup] at hs
    have edge : (a.direction.flow g).Edge (g.node j) (g.node i) :=
      ((wf.flow a.direction).edge_inverse _ (by simp [Graph.node_mem]) _
        (by simp [Graph.node_mem])).1 ⟨_, hs, List.mem_map_of_mem hj⟩
    -- The transfer function makes of a join of path facts the join of those one edge further on.
    have image : supClosure (a.pathFacts g f (g.node j)) ⊆
        {x | f (g.node j) x ∈ supClosure (a.pathFacts g f (g.node i))} := by
      refine supClosure_min (fun y hy => subset_supClosure (transfer_mem_pathFacts edge hy))
        fun y hy z hz => ?_
      rw [Set.mem_ofPred_eq, joins _ (Graph.node_mem j)]
      exact supClosed_supClosure hy hz
    exact image hx

variable [DecidableLE F] [DecidableEq F]

/-- The inputs in a result are bounds for what paths arrive with, and the least such bounds if
transfer functions preserve joins. -/
theorem isLUB_pathFacts_of_solve (wf : g.WellFormed) (acc : a.Accumulates g f)
    {settings : Settings} {s : Solution ν F} (h : (a.solve settings g).outcome = .ok s) :
    ∃ X : ν → Sides F, (∀ v ∈ g.nodes, s.facts? v = some (a.direction.place (X v))) ∧
      (∀ v ∈ g.nodes, ∀ u ∈ g.nodes, ∀ passed, (a.direction.flow g).Path u passed v →
        a.pathFact g f u passed ≤ (X v).input) ∧
      ((∀ v ∈ g.nodes, ∀ x y, f v (x ⊔ y) = f v x ⊔ f v y) →
        ∀ v ∈ g.nodes, IsLUB (a.pathFacts g f v) (X v).input) := by
  obtain ⟨boundary, last, tally, hb, hrun, rfl⟩ := solve_eq_ok h
  obtain ⟨X, hX, facts⟩ := exists_facts a wf.nodup last.store ⟨tally, settings.strategy⟩
  have solves : a.Solves g f X := by
    rw [solves_iff wf (Graph.boundary_eq_ok hb).1]
    simpa only [hX] using (Equations.isLeast_solve acc.equations (wired_equations wf) hrun).1
  have bounds := solves.mem_upperBounds acc wf hb
  refine ⟨X, facts, fun v _ u hu passed path => bounds v ⟨u, hu, passed, path, rfl⟩,
    fun joins => Graph.forall_node.2 fun i => ⟨bounds _, fun x hx => ?_⟩⟩
  rw [← upperBounds_supClosure] at hx
  rw [hX]
  exact hx ((Equations.trail_of_solve hrun).input_mem acc.equations
    (closed_supClosure wf hb joins) i)

theorem isLUB_pathFacts_spinning :
    ∃ s, (passedNodes.solve {} spinning).outcome = .ok s ∧
      ∃ X : Nat → Sides Nat, (∀ v ∈ spinning.nodes, s.facts? v = some ⟨(X v).input, (X v).output⟩) ∧
        ∀ v ∈ spinning.nodes,
          IsLUB (passedNodes.pathFacts spinning (fun _ passed => min 3 (passed + 1)) v)
            (X v).input := by
  obtain ⟨s, h⟩ : ∃ s, (passedNodes.solve {} spinning).outcome = .ok s :=
    exists_eq_ok (by decide +kernel)
  obtain ⟨X, facts, -, least⟩ :=
    isLUB_pathFacts_of_solve (by decide) (accumulates_passedNodes spinning) h
  refine ⟨s, h, X, facts, least fun _ _ x y => ?_⟩
  change min 3 (max x y + 1) = max (min 3 (x + 1)) (min 3 (y + 1))
  omega

end Analysis

end FlowFacts

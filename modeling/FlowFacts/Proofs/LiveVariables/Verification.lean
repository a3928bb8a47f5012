import FlowFacts.Proofs.LiveVariables.Paths

/-!
# Verification of live variables

The facts that the analysis of live variables computes are offered to verification, which takes what
is live before a node away while it visits the node. That loses the variables that are live after
the node only because they are live before the node itself (`LabeledGraph.LiveByItself`), and a
result is accepted exactly if there are none (`Liveness.verify_iff_of_solve`).
-/

namespace FlowFacts

namespace LabeledGraph

variable {ν ℓ V : Type} [DefUse ℓ V]

/-- The node is a child of itself, and the variable is live at it, but at no other child of it. -/
def LiveByItself (g : LabeledGraph ν ℓ) (v : ν) (x : V) : Prop :=
  g.toGraph.Edge v v ∧ g.Live v x ∧ ∀ w, g.toGraph.Edge v w → g.Live w x → w = v

end LabeledGraph

namespace Liveness

variable {ν ℓ V : Type} [Ord V] [Std.TransOrd V] [Std.LawfulEqOrd V] [Inspect V] [Inspect ν]
  [DefUse ℓ V] [DecidableEq ν] {g : LabeledGraph ν ℓ} {boundary : Fin g.size}
  {store : Store g.size (FactSet V)} {x : V}

omit [Std.LawfulEqOrd V] in
/-- What a node collects while its own facts are away: what is live at its other children. -/
theorem mem_meetOver_cleared {i : Fin g.size} {sources : List (Fin g.size)} :
    x ∈ ((liveVariables g).equations g.toGraph boundary).meetOver
        (((liveVariables g).equations g.toGraph boundary).cleared store i) sources ↔
      ∃ j ∈ sources, j ≠ i ∧ x ∈ (store.get j).output := by
  rw [mem_meetOver]
  refine exists_congr fun j => and_congr_right fun _ => ?_
  rw [Equations.get_cleared]
  by_cases hij : i = j
  · have initial : x ∉ (∅ : FactSet V) := by simp
    rw [if_pos hij]
    exact iff_of_false initial fun h => h.1 hij.symm
  · rw [if_neg hij, and_iff_right (Ne.symm hij)]

omit [Std.LawfulEqOrd V] in
theorem fedByItself_iff (wf : g.toGraph.WellFormed)
    (hb : g.toGraph.boundary .backward = .ok boundary)
    (live : ∀ i x, x ∈ (store.get i).output ↔ g.Live (g.node i) x) (i : Fin g.size) :
    ((liveVariables g).equations g.toGraph boundary).FedByItself store i ↔
      ∃ x, g.LiveByItself (g.node i) x := by
  constructor
  · rintro ⟨-, sources, hs, hmem, hnot⟩
    obtain ⟨x, hx, away⟩ : ∃ x ∈ (store.get i).output, x ∉
        ((liveVariables g).equations g.toGraph boundary).meetOver
          (((liveVariables g).equations g.toGraph boundary).cleared store i) sources := by
      simpa only [FactSet.le_def, not_forall, exists_prop] using hnot
    refine ⟨x, (mem_sources_iff wf hs).1 hmem, (live i x).1 hx, fun w edge hw => ?_⟩
    obtain ⟨j, rfl⟩ := Graph.exists_node (wf.mem_of_edge (Graph.node_mem i) edge)
    by_contra other
    have hji : j ≠ i := fun same => other (congrArg _ same)
    exact away (mem_meetOver_cleared.2 ⟨j, (mem_sources_iff wf hs).2 edge, hji, (live j x).2 hw⟩)
  · rintro ⟨x, edge, hx, alone⟩
    obtain ⟨sources, hs, -⟩ := Analysis.exists_sources (liveVariables g) boundary wf i
    refine ⟨ne_boundary_of_edge hb edge, sources, hs, (mem_sources_iff wf hs).2 edge, fun hle => ?_⟩
    obtain ⟨j, hj, hji, hjx⟩ := mem_meetOver_cleared.1 (hle x ((live i x).2 hx))
    have same := alone _ ((mem_sources_iff wf hs).1 hj) ((live j x).1 hjx)
    exact hji (Graph.node_injective wf.nodup same)

theorem verify_of_solve (wf : g.toGraph.WellFormed) {settings : Settings}
    {s : Solution ν (FactSet V)}
    (h : ((liveVariables g).solve settings g.toGraph).outcome = .ok s) :
    (((liveVariables g).verify g.toGraph s).outcome = .ok () ↔
      ∀ v ∈ g.nodes, ∀ x, ¬ g.LiveByItself v x) ∧
    ∀ failure, ((liveVariables g).verify g.toGraph s).outcome = .error failure →
      ∃ v ∈ g.nodes, (∃ x, g.LiveByItself v x) ∧
        failure = ⟨"liveness", .backward, .notAFixpoint v .after⟩ := by
  obtain ⟨boundary, last, tally, hb, hrun, rfl⟩ := Analysis.solve_eq_ok h
  have acc : ((liveVariables g).equations g.toGraph boundary).Accumulates _ :=
    (accumulates_liveVariables g).equations
  have wired : ((liveVariables g).equations g.toGraph boundary).Wired := Analysis.wired_equations wf
  have solves := (Equations.isLeast_solve acc wired hrun).1
  obtain ⟨order, ho, -⟩ := Equations.solve_eq_ok hrun
  have total : ∀ i, ∃ sources,
      ((liveVariables g).equations g.toGraph boundary).sources i = .ok sources := by
    intro i
    obtain ⟨sources, hs, -⟩ := Analysis.exists_sources (liveVariables g) boundary wf i
    exact ⟨sources, hs⟩
  have fed : ∀ i, _ ↔ ∃ x, g.LiveByItself (g.node i) x :=
    fedByItself_iff wf hb fun i x => (live_of_run wf hb hrun i x).1
  obtain ⟨accepted, refused⟩ := acc.check_of_solves solves total ho (wired.covers ho)
  rw [Analysis.outcome_verify hb (Analysis.storeOf_factsOf wf.nodup last.store _)]
  cases hcheck : (((liveVariables g).equations g.toGraph boundary).check last.store).2 with
  | none =>
    have clear := accepted.1 hcheck
    refine ⟨iff_of_true rfl fun v hv x hx => ?_, fun failure hf => by cases hf⟩
    obtain ⟨i, rfl⟩ := Graph.exists_node hv
    exact clear i ((fed i).2 ⟨x, hx⟩)
  | some stop =>
    obtain ⟨i, hi, rfl⟩ := refused stop hcheck
    obtain ⟨x, hx⟩ := (fed i).1 hi
    refine ⟨iff_of_false (fun hf => by cases hf) fun clear => ?_, fun failure hf => ?_⟩
    · exact clear _ (Graph.node_mem i) x hx
    · cases hf
      exact ⟨_, Graph.node_mem i, ⟨x, hx⟩, rfl⟩

/-- Whatever edits made the program and whatever the settings of the solver: a result is accepted
exactly if no variable is live after a node only because it is live before it. Else it is refused
for what is live after such a node. -/
theorem verify_iff_of_solve {σ : Type} [DefUse σ V] {edits : List (Edit σ)} {settings : Settings}
    {s : Solution NodeId (FactSet V)}
    (h : ((liveVariables (ControlGraph.ofEdits edits).toLabeledGraph).solve settings
      (ControlGraph.ofEdits edits).toGraph).outcome = .ok s) :
    (((liveVariables (ControlGraph.ofEdits edits).toLabeledGraph).verify
        (ControlGraph.ofEdits edits).toGraph s).outcome = .ok () ↔
      ∀ v ∈ (ControlGraph.ofEdits edits).nodes, ∀ x,
        ¬ (ControlGraph.ofEdits edits).toLabeledGraph.LiveByItself v x) ∧
    ∀ failure, ((liveVariables (ControlGraph.ofEdits edits).toLabeledGraph).verify
        (ControlGraph.ofEdits edits).toGraph s).outcome = .error failure →
      ∃ v ∈ (ControlGraph.ofEdits edits).nodes,
        (∃ x, (ControlGraph.ofEdits edits).toLabeledGraph.LiveByItself v x) ∧
          failure = ⟨"liveness", .backward, .notAFixpoint v .after⟩ :=
  verify_of_solve (ControlGraph.wellFormed_ofEdits edits) h

/-- Waits for a variable, in a loop of one node that alone uses it. -/
def waiting : List (Edit Statement) :=
  [.push .nop, .push (.branch (.var ⟨0⟩)), .push (.return none),
    .connectChain [⟨0⟩, ⟨1⟩, ⟨2⟩], .connect ⟨1⟩ ⟨1⟩]

theorem exists_solution_waiting :
    ∃ s, ((liveVariables (ControlGraph.ofEdits waiting).toLabeledGraph).solve {}
      (ControlGraph.ofEdits waiting).toGraph).outcome = .ok s := exists_eq_ok (by decide +kernel)

theorem verify_iff_waiting :
    ∃ s, ((liveVariables (ControlGraph.ofEdits waiting).toLabeledGraph).solve {}
        (ControlGraph.ofEdits waiting).toGraph).outcome = .ok s ∧
      (((liveVariables (ControlGraph.ofEdits waiting).toLabeledGraph).verify
          (ControlGraph.ofEdits waiting).toGraph s).outcome = .ok () ↔
        ∀ v ∈ (ControlGraph.ofEdits waiting).nodes, ∀ x,
          ¬ (ControlGraph.ofEdits waiting).toLabeledGraph.LiveByItself v x) := by
  obtain ⟨s, h⟩ := exists_solution_waiting
  exact ⟨s, h, (verify_iff_of_solve h).1⟩

/-- The variable waited for is live after the loop only by itself, and so the result is refused. -/
theorem verify_refuses_waiting :
    ∃ s, ((liveVariables (ControlGraph.ofEdits waiting).toLabeledGraph).solve {}
        (ControlGraph.ofEdits waiting).toGraph).outcome = .ok s ∧
      ((liveVariables (ControlGraph.ofEdits waiting).toLabeledGraph).verify
        (ControlGraph.ofEdits waiting).toGraph s).outcome =
        .error ⟨"liveness", .backward, .notAFixpoint ⟨1⟩ .after⟩ := by
  have refused : (((liveVariables (ControlGraph.ofEdits waiting).toLabeledGraph).solve {}
      (ControlGraph.ofEdits waiting).toGraph).outcome.bind fun s =>
        ((liveVariables (ControlGraph.ofEdits waiting).toLabeledGraph).verify
          (ControlGraph.ofEdits waiting).toGraph s).outcome) =
      .error ⟨"liveness", .backward, .notAFixpoint ⟨1⟩ .after⟩ := by decide +kernel
  obtain ⟨s, h⟩ := exists_solution_waiting
  rw [h] at refused
  exact ⟨s, h, refused⟩

end Liveness

end FlowFacts

import FlowFacts.LiveVariables
import FlowFacts.Proofs.Dataflow.LeastSolution
import FlowFacts.Proofs.FactSet
import FlowFacts.Proofs.Program.History

/-!
# Live variables and paths

A variable is live at a node if a path from there leads to a use of it without passing a definition
of it first (`LabeledGraph.Live`). That is what the analysis of live variables computes: on every
trail of visits only live variables are collected (`Liveness.live_of_trail`), and facts that solve
the equations miss none (`Liveness.mem_of_live`).
-/

namespace FlowFacts

namespace LabeledGraph

variable {ν ℓ V : Type} [DefUse ℓ V] {g : LabeledGraph ν ℓ} {v : ν} {x : V}

/-- Some path from the node leads to a use of the variable, and no node that it leaves defines
it. -/
def Live (g : LabeledGraph ν ℓ) (v : ν) (x : V) : Prop :=
  ∃ passed w, g.toGraph.Path v passed w ∧ x ∈ g.uses w ∧ ∀ u ∈ passed, g.defined? u ≠ some x

theorem live_iff : g.Live v x ↔
    x ∈ g.uses v ∨ g.defined? v ≠ some x ∧ ∃ w, g.toGraph.Edge v w ∧ g.Live w x := by
  constructor
  · rintro ⟨_, w, path, use, clear⟩
    cases path with
    | nil => exact .inl use
    | cons edge path =>
      rw [List.forall_mem_cons] at clear
      exact .inr ⟨clear.1, _, edge, _, w, path, use, clear.2⟩
  · rintro (use | ⟨hv, w, edge, passed, last, path, use, clear⟩)
    · exact ⟨[], v, .nil v, use, fun u hu => absurd hu List.not_mem_nil⟩
    · exact ⟨v :: passed, last, .cons edge path, use, List.forall_mem_cons.2 ⟨hv, clear⟩⟩

end LabeledGraph

variable {ν ℓ V : Type} [Ord V] [Std.TransOrd V] [Std.LawfulEqOrd V] [DefUse ℓ V]
  {g : LabeledGraph ν ℓ} {x : V}

theorem mem_liveBefore {v : ν} {after : FactSet V} :
    x ∈ liveBefore g v after ↔ x ∈ g.uses v ∨ g.defined? v ≠ some x ∧ x ∈ after := by
  rw [liveBefore, Std.ExtTreeSet.mem_union_iff, FactSet.mem_ofList, or_comm]
  refine or_congr_right ?_
  cases g.defined? v with
  | none => simp
  | some y => simp [Std.ExtTreeSet.mem_erase]

/-- What is computed from facts that are live after a node is live before it. -/
theorem live_of_liveBefore {v : ν} {after : FactSet V}
    (h : ∀ x ∈ after, ∃ w, g.toGraph.Edge v w ∧ g.Live w x) :
    ∀ x ∈ liveBefore g v after, g.Live v x := by
  intro x hx
  rw [mem_liveBefore] at hx
  exact LabeledGraph.live_iff.2 (hx.imp_right (And.imp_right (h x)))

theorem monotone_liveBefore (g : LabeledGraph ν ℓ) (v : ν) :
    Monotone (liveBefore g v : FactSet V → FactSet V) := by
  intro s t h x hx
  rw [mem_liveBefore] at hx ⊢
  exact hx.imp_right (And.imp_right (h x))

variable [Inspect V] [Inspect ν]

theorem accumulates_liveVariables (g : LabeledGraph ν ℓ) :
    (liveVariables g).Accumulates g.toGraph (liveBefore g) where
  initial_le := FactSet.empty_le
  meet_eq _ _ := rfl
  monotone v _ := monotone_liveBefore g v
  transfer_eq _ _ _ := rfl
  report_iff _ _ _ := FactSet.resized_changed_iff <|
    .inl fun _ hx => Std.ExtTreeSet.mem_union_iff.2 (.inl hx)

namespace Liveness

variable [DecidableEq ν] {boundary : Fin g.size} {visits : List (Visit g.size (FactSet V))}
  {store : Store g.size (FactSet V)} {i j : Fin g.size}

omit [Std.LawfulEqOrd V] in
theorem mem_meetOver {sources : List (Fin g.size)} :
    x ∈ ((liveVariables g).equations g.toGraph boundary).meetOver store sources ↔
      ∃ j ∈ sources, x ∈ (store.get j).output := by
  have empty : x ∉ (∅ : FactSet V) := by simp
  exact FactSet.mem_foldl_union.trans (or_iff_right empty)

omit [Std.LawfulEqOrd V] in
theorem mem_sources_iff (wf : g.toGraph.WellFormed) {sources : List (Fin g.size)}
    (hs : ((liveVariables g).equations g.toGraph boundary).sources i = .ok sources) :
    j ∈ sources ↔ g.toGraph.Edge (g.node i) (g.node j) := by
  rw [Analysis.sources_equations_iff wf.nodup] at hs
  have children : g.children (g.node i) = .ok (sources.map g.node) := hs
  rw [Graph.edge_iff children, List.mem_map_of_injective (Graph.node_injective wf.nodup)]

omit [Std.LawfulEqOrd V] [Inspect V] [Inspect ν] [Ord V] [Std.TransOrd V] in
theorem ne_boundary_of_edge (hb : g.toGraph.boundary .backward = .ok boundary) {w : ν}
    (edge : g.toGraph.Edge (g.node i) w) : i ≠ boundary := by
  rintro rfl
  have none : g.children (g.node i) = .ok [] := (Graph.boundary_eq_ok hb).2
  exact List.not_mem_nil ((Graph.edge_iff none).1 edge)

omit [Std.LawfulEqOrd V] in
/-- Where the facts are only what is live, so is what is collected from them. -/
theorem live_of_gather (wf : g.toGraph.WellFormed)
    (below : ∀ i, (∀ x ∈ (store.get i).input, ∃ w, g.toGraph.Edge (g.node i) w ∧ g.Live w x) ∧
      ∀ x ∈ (store.get i).output, g.Live (g.node i) x) {facts : FactSet V}
    (hgather : ((liveVariables g).equations g.toGraph boundary).gather store i = .ok facts) :
    ∀ x ∈ facts, ∃ w, g.toGraph.Edge (g.node i) w ∧ g.Live w x := by
  intro x hx
  obtain ⟨-, heq⟩ | ⟨-, sources, hs, heq⟩ := Equations.gather_eq_ok_iff.1 hgather
  · exact (below i).1 x (heq ▸ hx)
  · rw [heq, mem_meetOver] at hx
    obtain ⟨j, hj, hx⟩ := hx
    exact ⟨g.node j, (mem_sources_iff wf hs).1 hj, (below j).2 x hx⟩

/-- At no time is anything collected that is not live. -/
theorem live_of_trail (wf : g.toGraph.WellFormed)
    (h : ((liveVariables g).equations g.toGraph boundary).Trail visits store) (i : Fin g.size) :
    (∀ x ∈ (store.get i).input, ∃ w, g.toGraph.Edge (g.node i) w ∧ g.Live w x) ∧
      ∀ x ∈ (store.get i).output, g.Live (g.node i) x := by
  have acc : ((liveVariables g).equations g.toGraph boundary).Accumulates _ :=
    (accumulates_liveVariables g).equations
  refine h.invariant (P := fun i sides =>
    (∀ x ∈ sides.input, ∃ w, g.toGraph.Edge (g.node i) w ∧ g.Live w x) ∧
      ∀ x ∈ sides.output, g.Live (g.node i) x) (fun i => ?_) (fun store i v below hv => ?_) i
  · have empty : ∀ x : V, x ∉ (∅ : FactSet V) := by simp
    rw [Equations.get_seed]
    split <;> exact ⟨fun x hx => absurd hx (empty x), fun x hx => absurd hx (empty x)⟩
  · have input := live_of_gather wf below (Equations.visit_eq_ok_iff.1 hv).2.1
    rw [acc.left_of_visit hv]
    refine ⟨input, fun x hx => ?_⟩
    rcases FactSet.mem_sup.1 hx with old | new
    · exact (below i).2 x old
    · exact live_of_liveBefore input x new

section

variable (wf : g.toGraph.WellFormed) (hb : g.toGraph.boundary .backward = .ok boundary)
  (solves : ((liveVariables g).equations g.toGraph boundary).Solves
    (fun i => liveBefore g (g.node i)) store.get)
include wf hb solves

/-- In facts that solve the equations, what is live before a child is live after a node. Nothing
needs to be said of the boundary, which has no children. -/
theorem mem_input_of_edge (edge : g.toGraph.Edge (g.node i) (g.node j))
    (h : x ∈ (store.get j).output) : x ∈ (store.get i).input := by
  obtain ⟨sources, hs, -⟩ := Analysis.exists_sources (liveVariables g) boundary wf i
  exact (solves.input i (ne_boundary_of_edge hb edge) sources hs).1
    ⟨j, (mem_sources_iff wf hs).2 edge, rfl⟩ x h

/-- Facts that solve the equations miss nothing that is live. -/
theorem mem_of_live (live : g.Live (g.node i) x) : x ∈ (store.get i).output := by
  obtain ⟨passed, w, path, use, clear⟩ := live
  generalize hv : g.node i = v at path
  induction path generalizing i with
  | nil v =>
    rw [solves.output i, mem_liveBefore]
    exact .inl (hv ▸ use)
  | @cons u v w passed edge path ih =>
    subst hv
    rw [List.forall_mem_cons] at clear
    obtain ⟨j, rfl⟩ := Graph.exists_node (wf.mem_of_edge (Graph.node_mem i) edge)
    have later : x ∈ (store.get j).output := ih use clear.2 rfl
    rw [solves.output i, mem_liveBefore]
    exact .inr ⟨clear.1, mem_input_of_edge wf hb solves edge later⟩

end

/-! ### Results -/

/-- The facts in the end: what is live at a node, and what is live at one of its children. -/
theorem live_of_run (wf : g.toGraph.WellFormed) (hb : g.toGraph.boundary .backward = .ok boundary)
    {settings : Settings} {last : Progress g.size (FactSet V)} {tally : Tally}
    (hrun : ((liveVariables g).equations g.toGraph boundary).solve settings = (last, .ok tally))
    (i : Fin g.size) (x : V) :
    (x ∈ (last.store.get i).output ↔ g.Live (g.node i) x) ∧
      (x ∈ (last.store.get i).input ↔ ∃ w, g.toGraph.Edge (g.node i) w ∧ g.Live w x) := by
  have solves := (Equations.isLeast_solve (accumulates_liveVariables g).equations
    (Analysis.wired_equations wf) hrun).1
  have trail := ((liveVariables g).equations g.toGraph boundary).trail_solve settings
  rw [hrun] at trail
  obtain ⟨input, output⟩ := live_of_trail wf trail i
  refine ⟨⟨output x, mem_of_live wf hb solves⟩, input x, ?_⟩
  rintro ⟨w, edge, live⟩
  obtain ⟨j, rfl⟩ := Graph.exists_node (wf.mem_of_edge (Graph.node_mem i) edge)
  exact mem_input_of_edge wf hb solves edge (mem_of_live wf hb solves live)

theorem exists_facts_of_solve (wf : g.toGraph.WellFormed) {settings : Settings}
    {s : Solution ν (FactSet V)}
    (h : ((liveVariables g).solve settings g.toGraph).outcome = .ok s) {v : ν} (hv : v ∈ g.nodes) :
    ∃ facts, s.facts? v = some facts ∧ (∀ x, x ∈ facts.before ↔ g.Live v x) ∧
      ∀ x, x ∈ facts.after ↔ ∃ w, g.toGraph.Edge v w ∧ g.Live w x := by
  obtain ⟨boundary, last, tally, hb, hrun, rfl⟩ := Analysis.solve_eq_ok h
  obtain ⟨i, rfl⟩ := Graph.exists_node hv
  refine ⟨_, Analysis.facts?_factsOf wf.nodup i, fun x => ?_, fun x => ?_⟩
  · exact (live_of_run wf hb hrun i x).1
  · exact (live_of_run wf hb hrun i x).2

/-- Whatever edits made the program and whatever the settings: when the analysis has a result, every
node has its live variables. Before the node these are those that some path leads to a use of, and
after it those that are live before one of its successors. -/
theorem live_sets_of_solve {σ : Type} [DefUse σ V] {edits : List (Edit σ)} {settings : Settings}
    {s : Solution NodeId (FactSet V)}
    (h : ((liveVariables (ControlGraph.ofEdits edits).toLabeledGraph).solve settings
      (ControlGraph.ofEdits edits).toGraph).outcome = .ok s)
    {v : NodeId} (hv : v ∈ (ControlGraph.ofEdits edits).nodes) :
    ∃ before after, liveIn? ⟨s⟩ v = some before ∧ liveOut? ⟨s⟩ v = some after ∧
      ∀ x, (x ∈ before ↔ (ControlGraph.ofEdits edits).toLabeledGraph.Live v x) ∧
        (x ∈ after ↔
          ∃ w, (ControlGraph.ofEdits edits).toGraph.Edge v w ∧ isLiveIn ⟨s⟩ w x = true) := by
  have wf := ControlGraph.wellFormed_ofEdits edits
  obtain ⟨facts, hfacts, before, after⟩ := exists_facts_of_solve wf h hv
  refine ⟨facts.before, facts.after, by simp [liveIn?, Solution.before?, hfacts],
    by simp [liveOut?, Solution.after?, hfacts], fun x => ⟨before x, ?_⟩⟩
  rw [after]
  refine exists_congr fun w => and_congr_right fun edge => ?_
  obtain ⟨facts', hfacts', before', -⟩ :=
    exists_facts_of_solve wf h (wf.mem_of_edge (show v ∈ _ from hv) edge)
  rw [← before']
  simp [isLiveIn, liveIn?, Solution.before?, hfacts']

/-- Adds up a variable in a loop, whose head can also come after itself. -/
def spinningSum : List (Edit Statement) :=
  [.push (.assign ⟨0⟩ (.const 0)), .push (.branch (.var ⟨1⟩)),
    .push (.binary ⟨0⟩ .add (.var ⟨0⟩) (.var ⟨1⟩)), .push (.return (some (.var ⟨0⟩))),
    .connectChain [⟨0⟩, ⟨1⟩, ⟨2⟩, ⟨1⟩, ⟨3⟩], .connect ⟨1⟩ ⟨1⟩]

theorem live_sets_spinningSum :
    ∃ s, ((liveVariables (ControlGraph.ofEdits spinningSum).toLabeledGraph).solve {}
        (ControlGraph.ofEdits spinningSum).toGraph).outcome = .ok s ∧
      ∃ before after, liveIn? ⟨s⟩ ⟨1⟩ = some before ∧ liveOut? ⟨s⟩ ⟨1⟩ = some after ∧
        ∀ x, (x ∈ before ↔ (ControlGraph.ofEdits spinningSum).toLabeledGraph.Live ⟨1⟩ x) ∧
          (x ∈ after ↔ ∃ w, (ControlGraph.ofEdits spinningSum).toGraph.Edge ⟨1⟩ w ∧
            isLiveIn ⟨s⟩ w x = true) := by
  obtain ⟨s, h⟩ := exists_eq_ok (x := ((liveVariables
    (ControlGraph.ofEdits spinningSum).toLabeledGraph).solve {}
      (ControlGraph.ofEdits spinningSum).toGraph).outcome) (by decide +kernel)
  exact ⟨s, h, live_sets_of_solve h (by decide +kernel)⟩

end Liveness

end FlowFacts

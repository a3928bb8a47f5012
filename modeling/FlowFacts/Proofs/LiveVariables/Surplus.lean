import FlowFacts.Proofs.Dataflow.Acceptance
import FlowFacts.Proofs.Graph.Cycles
import FlowFacts.Proofs.LiveVariables.Paths

/-!
# Facts with more than what is live

Verification holds every node to its neighbours: what is before it must come from the node or from
after it, and what is after it from before another node (`LabeledGraph.Supported`). That refuses
nearly all facts that have more than what is live. The exception is a variable that is dead but
keeps itself up: around a cycle that does not define it, each node has it because the next one does
(`Liveness.verify_of_surplus`).
-/

namespace FlowFacts

namespace LabeledGraph

variable {ν ℓ V : Type} [Ord V] [Std.TransOrd V] [DefUse ℓ V]

/-- Each side of each node has what it gets from the others: before the node what it uses, or leaves
of what is after it, and after the node what is before one of its children other than itself. -/
structure Supported (g : LabeledGraph ν ℓ) (X : ν → NodeFacts (FactSet V)) : Prop where
  before : ∀ v ∈ g.nodes, ∀ x,
    x ∈ (X v).before ↔ x ∈ g.uses v ∨ g.defined? v ≠ some x ∧ x ∈ (X v).after
  after : ∀ v ∈ g.nodes, ∀ x,
    x ∈ (X v).after ↔ ∃ w, w ≠ v ∧ g.toGraph.Edge v w ∧ x ∈ (X w).before

/-- The variable is before the node, though it is not live there. -/
structure Surplus (g : LabeledGraph ν ℓ) (X : ν → NodeFacts (FactSet V)) (x : V)
    (v : ν) : Prop where
  mem_nodes : v ∈ g.nodes
  mem_before : x ∈ (X v).before
  dead : ¬ g.Live v x

variable {g : LabeledGraph ν ℓ} {X : ν → NodeFacts (FactSet V)} {x : V} {v : ν}

/-- What is surplus at a node is passed on from another node, where it is surplus as well. -/
theorem Surplus.passed_on (h : g.Surplus X x v) (wf : g.toGraph.WellFormed)
    (supported : g.Supported X) :
    g.defined? v ≠ some x ∧ x ∈ (X v).after ∧
      ∃ w, g.Surplus X x w ∧ w ≠ v ∧ g.toGraph.Edge v w := by
  rcases (supported.before v h.mem_nodes x).1 h.mem_before with use | ⟨clear, later⟩
  · exact absurd (live_iff.2 (.inl use)) h.dead
  · obtain ⟨w, apart, edge, hw⟩ := (supported.after v h.mem_nodes x).1 later
    have dead : ¬ g.Live w x := fun live => h.dead (live_iff.2 (.inr ⟨clear, w, edge, live⟩))
    exact ⟨clear, later, w, ⟨wf.mem_of_edge h.mem_nodes edge, hw, dead⟩, apart, edge⟩

/-- What is surplus somewhere is surplus all around a cycle that does not define it. -/
theorem Surplus.exists_cycle (h : g.Surplus X x v) (wf : g.toGraph.WellFormed)
    (supported : g.Supported X) :
    ∃ cycle, g.toGraph.Cycle cycle ∧ ∀ w ∈ cycle,
      x ∈ (X w).before ∧ x ∈ (X w).after ∧ ¬ g.Live w x ∧ g.defined? w ≠ some x := by
  obtain ⟨cycle, hcycle, surplus⟩ := Graph.exists_cycle (g := g.toGraph)
    (fun w (hw : g.Surplus X x w) => hw.mem_nodes)
    (fun w hw => (hw.passed_on wf supported).2.2) h
  refine ⟨cycle, hcycle, fun w hw => ?_⟩
  obtain ⟨clear, later, -⟩ := (surplus w hw).passed_on wf supported
  exact ⟨(surplus w hw).mem_before, later, (surplus w hw).dead, clear⟩

end LabeledGraph

namespace Liveness

variable {ν ℓ V : Type} [Ord V] [Std.TransOrd V] [Std.LawfulEqOrd V] [Inspect V] [Inspect ν]
  [DefUse ℓ V] [DecidableEq ν] {g : LabeledGraph ν ℓ} {boundary : Fin g.size}
  {X : ν → NodeFacts (FactSet V)} {x : V} {v : ν}

omit [Std.LawfulEqOrd V] in
/-- What comes in at a node while its own facts are away is before its other children. -/
theorem mem_meetOf_without {ws : List ν} (hws : g.children v = .ok ws) :
    x ∈ (liveVariables g).meetOf
        ((liveVariables g).without (fun w => Direction.backward.orient (X w)) v) ws ↔
      ∃ w, w ≠ v ∧ g.toGraph.Edge v w ∧ x ∈ (X w).before := by
  have empty : x ∉ (∅ : FactSet V) := by simp
  refine (FactSet.mem_foldl_union.trans (or_iff_right empty)).trans (exists_congr fun w => ?_)
  rw [Graph.edge_iff hws, Analysis.without]
  by_cases same : w = v
  · rw [same, Function.update_self]
    exact iff_of_false (fun h => empty h.2) fun h => h.1 rfl
  · rw [Function.update_of_ne same, and_iff_right same]
    rfl

theorem verify_iff_supported (wf : g.toGraph.WellFormed)
    (hb : g.toGraph.boundary .backward = .ok boundary) {r : Solution ν (FactSet V)}
    (facts : ∀ v ∈ g.nodes, r.facts? v = some (X v)) :
    ((liveVariables g).verify g.toGraph r).outcome = .ok () ↔ g.Supported X := by
  have acc := accumulates_liveVariables g
  have empty : ∀ x, x ∉ (∅ : FactSet V) := by simp
  have hentry := (Graph.boundary_eq_ok hb).1
  have exit : ∀ x, ¬ ∃ w, w ≠ g.node boundary ∧ g.toGraph.Edge (g.node boundary) w ∧
      x ∈ (X w).before := by
    rintro x ⟨w, -, edge, -⟩
    exact ne_boundary_of_edge hb edge rfl
  have decided := Analysis.verify_eq_ok_iff (a := liveVariables g) (s := r)
    (X := fun v => Direction.backward.orient (X v)) wf hb
    fun v hv => (facts v hv).trans (congrArg _ (Direction.place_orient _ _).symm)
  rw [decided]
  constructor
  · rintro ⟨hboundary, stands⟩
    have sides : ∀ v ∈ g.nodes, (X v).before = liveBefore g v (X v).after ∧ ∀ x,
        x ∈ (X v).after ↔ ∃ w, w ≠ v ∧ g.toGraph.Edge v w ∧ x ∈ (X w).before := by
      intro v hv
      by_cases hev : (Direction.backward.flow g.toGraph).entry = .ok v
      · have yields := (acc.yields_iff hv).1 ((stands v hv).entered hev)
        obtain rfl : g.node boundary = v := Except.ok.inj (hentry.symm.trans hev)
        have after : (X (g.node boundary)).after = ∅ := hboundary
        refine ⟨congrArg Sides.output yields, fun x => ?_⟩
        rw [after]
        exact iff_of_false (empty x) (exit x)
      · obtain ⟨ws, hws, -⟩ := wf.children v hv
        have yields := (acc.yields_iff hv).1 ((stands v hv).collected hev ws hws)
        have after := congrArg Sides.input yields
        refine ⟨?_, fun x => ?_⟩
        · rw [show (X v).after = _ from after]
          exact congrArg Sides.output yields
        · rw [show (X v).after = _ from after]
          exact mem_meetOf_without hws
    refine ⟨fun v hv x => ?_, fun v hv => (sides v hv).2⟩
    rw [(sides v hv).1, mem_liveBefore]
  · intro supported
    have before : ∀ v ∈ g.nodes, (X v).before = liveBefore g v (X v).after := fun v hv =>
      Std.ExtTreeSet.ext_mem fun x => (supported.before v hv x).trans mem_liveBefore.symm
    refine ⟨Std.ExtTreeSet.ext_mem fun x => ?_, fun v hv => ⟨fun _ => ?_, fun _ ws hws => ?_⟩⟩
    · exact (supported.after _ (Graph.node_mem boundary) x).trans
        (iff_of_false (exit x) (empty x))
    · exact (acc.yields_iff hv).2 (Sides.ext rfl (before v hv))
    · have after : (X v).after = (liveVariables g).meetOf
          ((liveVariables g).without (fun w => Direction.backward.orient (X w)) v) ws :=
        Std.ExtTreeSet.ext_mem fun x =>
          (supported.after v hv x).trans (mem_meetOf_without hws).symm
      rw [← after]
      exact (acc.yields_iff hv).2 (Sides.ext rfl (before v hv))

/-- Where supported facts have all that is live, and not only that, something is surplus. -/
theorem exists_surplus (wf : g.toGraph.WellFormed) {settings : Settings}
    {s : Solution ν (FactSet V)}
    (h : ((liveVariables g).solve settings g.toGraph).outcome = .ok s)
    (contains : ∀ v ∈ g.nodes, ∀ live, s.facts? v = some live →
      live.before ≤ (X v).before ∧ live.after ≤ (X v).after)
    (more : ∃ v ∈ g.nodes, s.facts? v ≠ some (X v)) (supported : g.Supported X) :
    ∃ x v, g.Surplus X x v := by
  by_contra none
  have live : ∀ v ∈ g.nodes, ∀ x ∈ (X v).before, g.Live v x := by
    intro v hv x hx
    by_contra dead
    exact none ⟨x, v, hv, hx, dead⟩
  obtain ⟨v, hv, differs⟩ := more
  obtain ⟨facts, hfacts, before, after⟩ := exists_facts_of_solve wf h hv
  obtain ⟨le_before, le_after⟩ := contains v hv facts hfacts
  have before_le : (X v).before ≤ facts.before := fun x hx => (before x).2 (live v hv x hx)
  have after_le : (X v).after ≤ facts.after := by
    intro x hx
    obtain ⟨w, -, edge, hw⟩ := (supported.after v hv x).1 hx
    exact (after x).2 ⟨w, edge, live w (wf.mem_of_edge hv edge) x hw⟩
  apply differs
  rw [hfacts]
  exact congrArg some (congrArg₂ NodeFacts.mk (le_antisymm le_before before_le)
    (le_antisymm le_after after_le))

/-- Facts with all that is live, and more, are accepted if they are supported. Then some variable is
before and after every node of a cycle, though it is live at none of them and none defines it. If
they are not accepted, they are said not to be a fixpoint. -/
theorem verify_of_surplus {σ : Type} [DefUse σ V] {edits : List (Edit σ)} {settings : Settings}
    {s : Solution NodeId (FactSet V)}
    (h : ((liveVariables (ControlGraph.ofEdits edits).toLabeledGraph).solve settings
      (ControlGraph.ofEdits edits).toGraph).outcome = .ok s)
    {r : Solution NodeId (FactSet V)} {X : NodeId → NodeFacts (FactSet V)}
    (facts : ∀ v ∈ (ControlGraph.ofEdits edits).nodes, r.facts? v = some (X v))
    (contains : ∀ v ∈ (ControlGraph.ofEdits edits).nodes, ∀ live, s.facts? v = some live →
      live.before ≤ (X v).before ∧ live.after ≤ (X v).after)
    (more : ∃ v ∈ (ControlGraph.ofEdits edits).nodes, s.facts? v ≠ some (X v)) :
    let g := (ControlGraph.ofEdits edits).toLabeledGraph
    let verdict := ((liveVariables g).verify g.toGraph r).outcome
    (verdict = .ok () ↔ g.Supported X) ∧
      (verdict = .ok () → ∃ x cycle, g.toGraph.Cycle cycle ∧ ∀ v ∈ cycle,
        x ∈ (X v).before ∧ x ∈ (X v).after ∧ ¬ g.Live v x ∧ g.defined? v ≠ some x) ∧
      (verdict ≠ .ok () → ∃ v ∈ g.nodes, ∃ side,
        verdict = .error ⟨"liveness", .backward, .notAFixpoint v side⟩) := by
  intro g verdict
  have wf : g.toGraph.WellFormed := ControlGraph.wellFormed_ofEdits edits
  obtain ⟨boundary, -, -, hb, -⟩ := Analysis.solve_eq_ok h
  have accepted := verify_iff_supported wf hb facts
  refine ⟨accepted, fun ok => ?_, fun refused => ?_⟩
  · obtain ⟨x, v, surplus⟩ := exists_surplus wf h contains more (accepted.1 ok)
    obtain ⟨cycle, hcycle, around⟩ := surplus.exists_cycle wf (accepted.1 ok)
    exact ⟨x, cycle, hcycle, around⟩
  · apply (Analysis.verify_of_grows wf (accumulates_liveVariables g).grows hb ?_).resolve_left
      refused
    · exact fun v => Direction.backward.orient (X v)
    · exact fun v hv => (facts v hv).trans (congrArg _ (Direction.place_orient _ _).symm)

/-- A loop of two nodes, one of which tests a variable. -/
def testing : List (Edit Statement) :=
  [.push .nop, .push (.branch (.var ⟨0⟩)), .push (.return none), .connectChain [⟨0⟩, ⟨1⟩, ⟨0⟩, ⟨2⟩]]

/-- The same loop without the test. -/
def testless : List (Edit Statement) :=
  [.push .nop, .push .nop, .push (.return none), .connectChain [⟨0⟩, ⟨1⟩, ⟨0⟩, ⟨2⟩]]

/-- The facts from before the test was taken out. -/
def stale (v : NodeId) : NodeFacts (FactSet Var) :=
  let tested := (∅ : FactSet Var).insert ⟨0⟩
  if v = ⟨2⟩ then ⟨∅, ∅⟩ else ⟨tested, tested⟩

theorem exists_solution_testless :
    ∃ s, ((liveVariables (ControlGraph.ofEdits testless).toLabeledGraph).solve {}
        (ControlGraph.ofEdits testless).toGraph).outcome = .ok s ∧
      ∀ v ∈ (ControlGraph.ofEdits testless).nodes, s.facts? v = some ⟨∅, ∅⟩ := by decide +kernel

theorem exists_solution_testing :
    ∃ r, ((liveVariables (ControlGraph.ofEdits testing).toLabeledGraph).solve {}
        (ControlGraph.ofEdits testing).toGraph).outcome = .ok r ∧
      (∀ v ∈ (ControlGraph.ofEdits testless).nodes, r.facts? v = some (stale v)) ∧
      ((liveVariables (ControlGraph.ofEdits testless).toLabeledGraph).verify
        (ControlGraph.ofEdits testless).toGraph r).outcome = .ok () := by decide +kernel

theorem empty_ne_stale : (⟨∅, ∅⟩ : NodeFacts (FactSet Var)) ≠ stale ⟨0⟩ := by decide +kernel

theorem verify_of_surplus_testless :
    ∃ r, (∀ v ∈ (ControlGraph.ofEdits testless).nodes, r.facts? v = some (stale v)) ∧
      ((liveVariables (ControlGraph.ofEdits testless).toLabeledGraph).verify
        (ControlGraph.ofEdits testless).toGraph r).outcome = .ok () ∧
      ∃ x cycle, (ControlGraph.ofEdits testless).toGraph.Cycle cycle ∧ ∀ v ∈ cycle,
        x ∈ (stale v).before ∧ x ∈ (stale v).after ∧
          ¬ (ControlGraph.ofEdits testless).toLabeledGraph.Live v x ∧
          (ControlGraph.ofEdits testless).toLabeledGraph.defined? v ≠ some x := by
  obtain ⟨s, hs, live⟩ := exists_solution_testless
  obtain ⟨r, -, facts, accepted⟩ := exists_solution_testing
  have contains : ∀ v ∈ (ControlGraph.ofEdits testless).nodes, ∀ facts, s.facts? v = some facts →
      facts.before ≤ (stale v).before ∧ facts.after ≤ (stale v).after := by
    intro v hv facts h
    cases (live v hv).symm.trans h
    exact ⟨FactSet.empty_le _, FactSet.empty_le _⟩
  have more : s.facts? ⟨0⟩ ≠ some (stale ⟨0⟩) := by
    rw [live ⟨0⟩ (by decide)]
    exact mt Option.some.inj empty_ne_stale
  exact ⟨r, facts, accepted,
    (verify_of_surplus hs facts contains ⟨⟨0⟩, by decide, more⟩).2.1 accepted⟩

/-- Facts that were computed for another graph with the same nodes can have all that is live, and
more, and be accepted. -/
theorem verify_accepts_stale :
    ∃ s r, ((liveVariables (ControlGraph.ofEdits testless).toLabeledGraph).solve {}
        (ControlGraph.ofEdits testless).toGraph).outcome = .ok s ∧
      ((liveVariables (ControlGraph.ofEdits testing).toLabeledGraph).solve {}
        (ControlGraph.ofEdits testing).toGraph).outcome = .ok r ∧
      (ControlGraph.ofEdits testing).nodes = (ControlGraph.ofEdits testless).nodes ∧
      (∀ v ∈ (ControlGraph.ofEdits testless).nodes, ∃ live more,
        s.facts? v = some live ∧ r.facts? v = some more ∧
          live.before ≤ more.before ∧ live.after ≤ more.after) ∧
      (∃ v ∈ (ControlGraph.ofEdits testless).nodes, s.facts? v ≠ r.facts? v) ∧
      ((liveVariables (ControlGraph.ofEdits testless).toLabeledGraph).verify
        (ControlGraph.ofEdits testless).toGraph r).outcome = .ok () := by
  obtain ⟨s, hs, live⟩ := exists_solution_testless
  obtain ⟨r, hr, facts, accepted⟩ := exists_solution_testing
  refine ⟨s, r, hs, hr, by decide, fun v hv => ?_, ⟨⟨0⟩, by decide, ?_⟩, accepted⟩
  · exact ⟨_, _, live v hv, facts v hv, FactSet.empty_le _, FactSet.empty_le _⟩
  · rw [live ⟨0⟩ (by decide), facts ⟨0⟩ (by decide)]
    exact mt Option.some.inj empty_ne_stale

end Liveness

end FlowFacts

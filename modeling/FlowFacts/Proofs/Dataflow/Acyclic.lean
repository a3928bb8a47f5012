import FlowFacts.Proofs.Dataflow.Accounts
import FlowFacts.Proofs.Equations.OneSweep

/-!
# Graphs without cycles

If the flow graph has no cycles and information from the boundary gets to every node, then the order
of visits is a topological one, and the facts are found in one sweep (`Analysis.run_of_acyclic`).
This asks nothing of the facts or of what joins them, and of the transfer functions no more than
that they leave the input side alone.
-/

namespace FlowFacts.Analysis

variable {ν F : Type} [DecidableEq ν] {a : Analysis ν F} {g : Graph ν} {boundary : Fin g.size}

theorem topological_equations (wf : g.WellFormed) (acyclic : (a.direction.flow g).Acyclic)
    (reached : ∀ v ∈ g.nodes, (a.direction.flow g).Reachable (g.node boundary) v)
    {order : List (Fin g.size)} (horder : (a.equations g boundary).order = .ok order) :
    (a.equations g boundary).Topological order := by
  rintro front i back rfl dependents hd j hj
  rw [dependents_equations, Graph.numbered_eq_ok_iff wf.nodup] at hd
  exact wf.mem_back_of_visitOrder acyclic reached horder ⟨_, hd, List.mem_map_of_mem hj⟩

omit [DecidableEq ν] in
/-- What a transfer function joins to the output once, it need not join to it again. -/
theorem Accumulates.transfer_again [SemilatticeSup F] {f : ν → F → F}
    (acc : a.Accumulates g f) {v : ν} (hv : v ∈ g.nodes) (sides : Sides F) :
    a.transferSides v (a.transferSides v sides).1 = ((a.transferSides v sides).1, .unchanged) := by
  have same : (a.transferSides v (a.transferSides v sides).1).1 = (a.transferSides v sides).1 := by
    rw [acc.transfer_eq v hv, acc.transfer_eq v hv, sup_assoc, sup_idem]
  refine Prod.ext same ?_
  cases hreport : (a.transferSides v (a.transferSides v sides).1).2 with
  | unchanged => rfl
  | changed => exact absurd (congrArg Sides.output same) ((acc.report_iff v hv _).1 hreport)

variable [LE F] [DecidableLE F] [DecidableEq F]

/-- Without checks, the worklist visits each node once, and no node waits again. Rounds have the
same facts after two passes at most, if a transfer function that is applied once more to what it
just did changes nothing and says so. Any limit will do that allows for these passes. Their visits
can be counted, as there are fewer than `2 ^ 63` nodes. -/
theorem run_of_acyclic (wf : g.WellFormed) (hb : g.boundary a.direction = .ok boundary)
    (acyclic : (a.direction.flow g).Acyclic)
    (reached : ∀ v ∈ g.nodes, (a.direction.flow g).Reachable (g.node boundary) v)
    (keeps : ∀ v ∈ g.nodes, ∀ sides, (a.transferSides v sides).1.input = sides.input)
    (small : g.size < 2 ^ 63) {limit? : Option Nat}
    (enough : ∀ limit, limit? = some limit → 1 ≤ limit) :
    ∃ t, (a.solve ⟨.worklist, limit?, false⟩ g).outcome = .ok t ∧
      t.stats.visits = (a.solve ⟨.worklist, limit?, false⟩ g).visits ∧
      t.stats.visits = g.size ∧ t.stats.passes = 1 ∧
      (∀ v, .enqueued v ∉ (a.solve ⟨.worklist, limit?, false⟩ g).journal) ∧
      ((∀ v ∈ g.nodes, ∀ sides, a.transferSides v (a.transferSides v sides).1 =
          ((a.transferSides v sides).1, .unchanged)) →
        ∀ limit'?, (∀ limit', limit'? = some limit' → 2 ≤ limit') →
          ∃ s, (a.solve ⟨.roundRobin, limit'?, false⟩ g).outcome = .ok s ∧
            s.stats.visits = (a.solve ⟨.roundRobin, limit'?, false⟩ g).visits ∧
            s.stats.passes = (a.solve ⟨.roundRobin, limit'?, false⟩ g).passes ∧
            s.stats.passes ≤ 2 ∧ ∀ v ∈ g.nodes, s.facts? v = t.facts? v) := by
  obtain ⟨order, horder, nodup⟩ := wf.exists_visitOrder a.direction boundary
  obtain ⟨store, worklist, rounds⟩ := Equations.exists_store_of_topological (complete_equations wf)
    (wired_equations wf) (fun i => keeps _ (Graph.node_mem i)) horder nodup
    (topological_equations wf acyclic reached horder) (show g.size * 2 ≤ 2 ^ 64 - 1 by omega)
  obtain ⟨last, hrun, rfl, fresh⟩ := worklist limit? enough
  have outcome := outcome_solve (a := a) hb ⟨.worklist, limit?, false⟩
  rw [hrun] at outcome
  refine ⟨_, outcome, visits_eq_of_solve outcome, rfl, rfl, fun v => ?_,
    fun again limit'? enough' => ?_⟩
  · have fresh : .enqueued v ∉ (g.entries a.direction last : List (Entry ν F)) := by
      intro hmem
      obtain ⟨e, he, hentry⟩ := List.mem_map.1 hmem
      cases e with
      | enqueued i => exact fresh i (List.mem_reverse.1 he)
      | visited | passed => cases hentry
    rw [journal_solve hb, hrun]
    simp [fresh]
  · obtain ⟨last', tally, hrun', two, hstore⟩ :=
      rounds (fun i => again _ (Graph.node_mem i)) limit'? enough'
    have outcome' := outcome_solve (a := a) hb ⟨.roundRobin, limit'?, false⟩
    rw [hrun'] at outcome'
    refine ⟨_, outcome', visits_eq_of_solve outcome',
      ((counted_of_solve outcome').rounds rfl).1, two, Graph.forall_node.2 fun i => ?_⟩
    rw [facts?_factsOf wf.nodup, facts?_factsOf wf.nodup, hstore]

/-- Two ways from an entry to an exit, one of them along parallel edges. -/
def diamond : Graph Nat where
  nodes := [0, 1, 2, 3]
  entry := .ok 0
  exit := .ok 3
  children
    | 0 => .ok [1, 2]
    | 1 => .ok [3]
    | 2 => .ok [3, 3]
    | _ => .ok []
  parents
    | 1 | 2 => .ok [0]
    | 3 => .ok [1, 2, 2]
    | _ => .ok []

theorem run_diamond :
    ∃ t s, (passedNodes.solve ⟨.worklist, some 1, false⟩ diamond).outcome = .ok t ∧
      t.stats.visits = 4 ∧
      (passedNodes.solve ⟨.roundRobin, some 2, false⟩ diamond).outcome = .ok s ∧
      ∀ v ∈ diamond.nodes, s.facts? v = t.facts? v := by
  have wf : diamond.WellFormed := by decide
  have acyclic : diamond.Acyclic := Graph.acyclic_of_rank wf id (by decide)
  have reached : ∀ v ∈ diamond.nodes, diamond.Reachable 0 v := by
    have answers : ∀ v ∈ diamond.nodes, diamond.reaches 0 v = .ok true := by decide +kernel
    exact fun v hv => (wf.reaches_eq_true_iff (by decide)).1 (answers v hv)
  have boundary : diamond.boundary .forward = .ok ⟨0, by decide⟩ := by decide +kernel
  have acc := accumulates_passedNodes diamond
  have allowed : ∀ limit, some 1 = some limit → 1 ≤ limit := by simp
  obtain ⟨t, ht, -, visits, -, -, rounds⟩ := run_of_acyclic (a := passedNodes) wf boundary acyclic
    reached (fun _ _ _ => rfl) (by decide) allowed
  obtain ⟨s, hs, -, -, -, same⟩ := rounds (fun _ => acc.transfer_again) (some 2) (by simp)
  exact ⟨t, s, ht, visits, hs, same⟩

end FlowFacts.Analysis

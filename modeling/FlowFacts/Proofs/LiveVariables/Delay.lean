import FlowFacts.Proofs.Dataflow.Accounts
import FlowFacts.Proofs.Equations.Stages
import FlowFacts.Proofs.Graph.Routes
import FlowFacts.Proofs.LiveVariables.Paths

/-!
# How soon variables are found to be live

A use of a variable is carried against the edges of the program, from node to node. Where some of
the flow edges are costly, `LabeledGraph.LiveWithin` says that a variable is live at a node because
of a path with no more than so many of them, and `Liveness.Covers` that a set has all these
variables. A visit takes its node to the next such stage (`Liveness.staged_of_bounded`).

If every edge is costly, then a path that comes to no node twice has fewer of them than there are
nodes, and the worklist is empty after one pass more than there are nodes
(`Liveness.visits_le_of_size`). If only those are that do not go forward in the order of visits,
then one pass carries a use along all the others, and rounds end two passes after the largest number
of costly edges on any simple path (`Liveness.passes_le_of_retreats`). How many variables there are
does not matter.
-/

namespace FlowFacts

/-! ### Budgets -/

namespace LabeledGraph

variable {ν ℓ V : Type} [DefUse ℓ V] {g : LabeledGraph ν ℓ} {costly : ν → ν → Bool}
  {v w : ν} {x : V}

/-- Some path from the node leads to a use of the variable, no node that it leaves defines it, and
no more flow edges along it than the budget says are costly. -/
inductive LiveWithin (g : LabeledGraph ν ℓ) (costly : ν → ν → Bool) (x : V) : Nat → ν → Prop
  | use {budget v} : x ∈ g.uses v → LiveWithin g costly x budget v
  | later {budget budget' v w} : g.defined? v ≠ some x → g.toGraph.Edge v w →
    LiveWithin g costly x budget w → (budget + if costly w v then 1 else 0) ≤ budget' →
    LiveWithin g costly x budget' v

theorem liveWithin_toll {passed : List ν} (path : g.toGraph.Path v passed w) (use : x ∈ g.uses w)
    (clear : ∀ u ∈ passed, g.defined? u ≠ some x) :
    g.LiveWithin costly x (Graph.toll costly (passed ++ [w]).reverse) v := by
  induction path with
  | nil => exact .use use
  | @cons u v w passed edge path ih =>
    obtain ⟨hu, clear⟩ := List.forall_mem_cons.1 clear
    obtain ⟨tail, htail⟩ := path.exists_tail
    refine .later hu edge (ih use clear) (Nat.le_of_eq ?_)
    rw [List.cons_append, List.reverse_cons, htail, List.reverse_cons, List.append_assoc]
    exact (Graph.toll_concat tail.reverse v u).symm

/-- What is live at a node is live within the toll of a simple path of the inverse that arrives
there. -/
theorem Live.exists_liveWithin (wf : g.toGraph.WellFormed) (hv : v ∈ g.nodes) (live : g.Live v x)
    (costly : ν → ν → Bool) :
    ∃ u ∈ g.nodes, ∃ passed, g.toGraph.inverse.SimplePath u passed v ∧
      g.LiveWithin costly x (Graph.toll costly (passed ++ [v])) v := by
  obtain ⟨passed, w, path, use, clear⟩ := live
  obtain ⟨short, simple, subset⟩ := path.exists_simple
  obtain ⟨back, hback, nodes⟩ := wf.exists_reverse_simple hv simple
  have hw : w ∈ g.nodes := wf.mem_of_path hv path w (by simp)
  refine ⟨w, hw, back, hback, ?_⟩
  rw [nodes]
  exact liveWithin_toll simple.path use fun u hu => clear u (subset hu)

end LabeledGraph

namespace Liveness

variable {ν ℓ V : Type} [Ord V] [Std.TransOrd V] [Std.LawfulEqOrd V] [Inspect V] [Inspect ν]
  [DefUse ℓ V] [DecidableEq ν] {g : LabeledGraph ν ℓ} {boundary : Fin g.size}

/-- The set has what is live at the node within fewer costly edges than so many. -/
def Covers (g : LabeledGraph ν ℓ) (costly : ν → ν → Bool) (k : Nat) (i : Fin g.size)
    (facts : FactSet V) : Prop :=
  ∀ budget < k, ∀ x, g.LiveWithin costly x budget (g.node i) → x ∈ facts

/-! ### Stages -/

section

variable (wf : g.toGraph.WellFormed) (hb : g.toGraph.boundary .backward = .ok boundary)
include wf hb

theorem covers_of_gather {store : Store g.size (FactSet V)} {costly : ν → ν → Bool} {k : Nat}
    {i : Fin g.size} {facts : FactSet V}
    (all : ∀ j, Covers g costly k j (store.get j).output)
    (ahead : ∀ j, costly (g.node j) (g.node i) = false ∧ g.toGraph.Edge (g.node i) (g.node j) →
      Covers g costly (k + 1) j (store.get j).output)
    (hgather : ((liveVariables g).equations g.toGraph boundary).gather store i = .ok facts) :
    Covers g costly (k + 1) i (liveBefore g (g.node i) facts) := by
  intro budget hbudget x hx
  rw [mem_liveBefore]
  cases hx with
  | use use => exact .inl use
  | @later earlier _ _ w clear edge later le =>
    obtain ⟨j, rfl⟩ := Graph.exists_node (wf.mem_of_edge (Graph.node_mem i) edge)
    refine .inr ⟨clear, ?_⟩
    -- Along a costly edge the present stage of the source is enough, along others it is ahead.
    have found : x ∈ (store.get j).output := by
      cases hcostly : costly (g.node j) (g.node i) with
      | false =>
        rw [hcostly] at le
        exact ahead j ⟨hcostly, edge⟩ earlier (by simpa using Nat.lt_of_le_of_lt le hbudget) x later
      | true =>
        rw [hcostly, if_pos rfl] at le
        exact all j earlier (by omega) x later
    obtain ⟨sources, hs, -⟩ := Analysis.exists_sources (liveVariables g) boundary wf i
    rw [Equations.gather_of_ne (ne_boundary_of_edge hb edge), hs] at hgather
    cases hgather
    exact mem_meetOver.2 ⟨j, (mem_sources_iff wf hs).2 edge, found⟩

/-- If all that is live is live within fewer costly edges than there are stages, then the facts are
ready after the last one. -/
theorem staged_of_bounded {costly : ν → ν → Bool} {stages : Nat}
    (bounded : ∀ v ∈ g.nodes, ∀ x : V, g.Live v x →
      ∃ budget < stages, g.LiveWithin costly x budget v) :
    ((liveVariables g).equations g.toGraph boundary).Staged (fun i => liveBefore g (g.node i))
      (fun _ j i => costly (g.node j) (g.node i) = false ∧ g.toGraph.Edge (g.node i) (g.node j))
      (Covers g costly) stages where
  start _ _ budget hbudget := absurd hbudget (Nat.not_lt_zero budget)
  mono le covers budget hbudget x hx := le x (covers budget hbudget x hx)
  step _ all ahead hgather := covers_of_gather wf hb all ahead hgather
  done trail all i facts hgather x hx := by
    have live := live_of_liveBefore (live_of_gather wf (live_of_trail wf trail) hgather) x hx
    obtain ⟨budget, hbudget, within⟩ := bounded _ (Graph.node_mem i) x live
    exact all i budget hbudget x within

/-- There are no more stages than nodes, in whatever order these are visited. -/
theorem staged_by_length :
    ((liveVariables g).equations g.toGraph boundary).Staged (fun i => liveBefore g (g.node i))
      (fun _ _ _ => False) (Covers g fun _ _ => true) g.size := by
  have bounded : ∀ v ∈ g.nodes, ∀ x : V, g.Live v x →
      ∃ budget < g.size, g.LiveWithin (fun _ _ => true) x budget v := by
    intro v hv x live
    obtain ⟨u, hu, passed, simple, within⟩ := live.exists_liveWithin wf hv fun _ _ => true
    exact ⟨_,
      (Graph.toll_le _ passed v).trans_lt (wf.inverse.length_lt_of_simplePath hu simple), within⟩
  simpa using staged_of_bounded wf hb bounded

theorem staged_by_retreats {order : List ν} {d : Nat}
    (greatest : IsGreatest (g.toGraph.inverse.retreatCounts order) d) :
    ((liveVariables g).equations g.toGraph boundary).Staged (fun i => liveBefore g (g.node i))
      (fun _ j i => Graph.retreating order (g.node j) (g.node i) = false ∧
        g.toGraph.Edge (g.node i) (g.node j))
      (Covers g (Graph.retreating order)) (d + 1) := by
  refine staged_of_bounded wf hb fun v hv x live => ?_
  obtain ⟨u, hu, passed, simple, within⟩ := live.exists_liveWithin wf hv (Graph.retreating order)
  exact ⟨_, Nat.lt_succ_of_le (greatest.2 ⟨u, hu, passed, v, simple, rfl⟩), within⟩

end

/-! ### Passes -/

/-- The visits of as many passes as there are nodes, and one more, can be counted. -/
theorem visits_le_maxCount {n : Nat} (small : n < 2 ^ 32) : n * (n + 1) ≤ maxCount :=
  calc n * (n + 1) ≤ (2 ^ 32 - 1) * 2 ^ 32 := Nat.mul_le_mul (by omega) (by omega)
    _ ≤ maxCount := by decide

/-- Rounds on a graph that suits the analysis end two passes after the largest number of edges on a
simple flow path that do not go forward in the order of visits. -/
theorem exists_solution_of_retreats (wf : g.toGraph.WellFormed) (small : g.toGraph.size < 2 ^ 32)
    (hb : g.toGraph.boundary .backward = .ok boundary) (check : Bool) :
    ∃ order d s, g.toGraph.visitOrder .backward boundary = .ok order ∧
      IsGreatest ((Direction.backward.flow g.toGraph).retreatCounts (order.map g.node)) d ∧
      ((liveVariables g).solve ⟨.roundRobin, none, check⟩ g.toGraph).outcome = .ok s ∧
      s.stats.passes ≤ d + 2 := by
  obtain ⟨order, horder, -⟩ := wf.exists_visitOrder .backward boundary
  have nonempty : g.nodes ≠ [] := List.ne_nil_of_mem (Graph.node_mem boundary)
  obtain ⟨d, greatest, hd⟩ :=
    wf.inverse.exists_isGreatest_retreatCounts nonempty (order.map g.node)
  have ahead : ∀ (_ : Nat) front i back, order = front ++ i :: back → ∀ j,
      Graph.retreating (order.map g.node) (g.node j) (g.node i) = false ∧
        g.toGraph.Edge (g.node i) (g.node j) → j ∈ front := by
    rintro - front i back hdecomposed j ⟨forward, -⟩
    have hmap : order.map g.node = front.map g.node ++ g.node i :: back.map g.node := by
      rw [hdecomposed, List.map_append, List.map_cons]
    exact (List.mem_map_of_injective (Graph.node_injective wf.nodup)).1
      (Graph.mem_of_not_retreating hmap forward)
  obtain ⟨last, outcome, hsolve, ends⟩ :=
    (staged_by_retreats (V := V) wf hb greatest).solveInRounds_ends
      (accumulates_liveVariables g).equations check (Analysis.complete_equations wf)
      (Graph.mem_visitOrder horder) ahead none
  have hrun : ((liveVariables g).equations g.toGraph boundary).solve ⟨.roundRobin, none, check⟩ =
      (last, outcome) := by
    have horder' : ((liveVariables g).equations g.toGraph boundary).order = .ok order := horder
    rw [Equations.solve, horder']
    exact hsolve
  have outcome_eq := Analysis.outcome_solve (a := liveVariables g) hb ⟨.roundRobin, none, check⟩
  rw [hrun] at outcome_eq
  obtain ⟨tally, rfl, few⟩ | ⟨limit, hlimit, -⟩ | ⟨-, short⟩ := ends
  · exact ⟨order, d, _, horder, greatest, outcome_eq, few⟩
  · cases hlimit
  · rw [Equations.countablePasses_lt_iff boundary.pos] at short
    have passes : d + 1 + 1 ≤ g.toGraph.size + 1 := Nat.succ_le_succ hd
    have enough := Nat.mul_le_mul_left g.toGraph.size passes
    have := visits_le_maxCount small
    omega

/-- Whatever edits made the program: if it suits the analysis, rounds have a result two passes after
the largest number of edges on a simple flow path that lead to a node that is not visited later.
Nodes have 32-bit numbers, so the visits of all these passes can be counted. -/
theorem passes_le_of_retreats {σ : Type} [DefUse σ V] {edits : List (Edit σ)}
    (small : (ControlGraph.ofEdits edits).size < 2 ^ 32)
    {boundary : Fin (ControlGraph.ofEdits edits).toGraph.size}
    (hb : (ControlGraph.ofEdits edits).toGraph.boundary .backward = .ok boundary) (check : Bool) :
    let program := ControlGraph.ofEdits edits
    let run := (liveVariables program.toLabeledGraph : Analysis NodeId (FactSet V)).solve
      ⟨.roundRobin, none, check⟩ program.toGraph
    ∃ order d s, program.toGraph.visitOrder .backward boundary = .ok order ∧
      IsGreatest ((Direction.backward.flow program.toGraph).retreatCounts
        (order.map program.toGraph.node)) d ∧
      run.outcome = .ok s ∧ s.stats.visits = run.visits ∧ s.stats.passes = run.passes ∧
      s.stats.passes ≤ d + 2 := by
  intro program run
  obtain ⟨order, d, s, horder, greatest, hs, few⟩ := exists_solution_of_retreats (V := V)
    (ControlGraph.wellFormed_ofEdits edits) (program.size_toGraph.trans_lt small) hb check
  exact ⟨order, d, s, horder, greatest, hs, Analysis.visits_eq_of_solve hs,
    ((Analysis.counted_of_solve hs).rounds rfl).1, few⟩

theorem passes_le_spinningSum :
    let program := ControlGraph.ofEdits spinningSum
    let run :=
      (liveVariables program.toLabeledGraph).solve ⟨.roundRobin, none, true⟩ program.toGraph
    ∃ order d s, program.toGraph.visitOrder .backward ⟨3, by decide⟩ = .ok order ∧
      IsGreatest ((Direction.backward.flow program.toGraph).retreatCounts
        (order.map program.toGraph.node)) d ∧
      run.outcome = .ok s ∧ s.stats.visits = run.visits ∧ s.stats.passes = run.passes ∧
      s.stats.passes ≤ d + 2 :=
  passes_le_of_retreats (by decide) (by decide +kernel) true

/-! ### Visits -/

/-- The worklist on a graph that suits the analysis is empty after as many visits as make one pass
more than there are nodes. -/
theorem exists_solution_of_length (wf : g.toGraph.WellFormed) (small : g.toGraph.size < 2 ^ 32)
    (hb : g.toGraph.boundary .backward = .ok boundary) (check : Bool) :
    ∃ s,
      ((liveVariables g : Analysis ν (FactSet V)).solve ⟨.worklist, none, check⟩
        g.toGraph).outcome = .ok s ∧
      s.stats.visits ≤ g.size * (g.size + 1) := by
  obtain ⟨order, horder, nodup⟩ := wf.exists_visitOrder .backward boundary
  obtain ⟨last, outcome, hsolve, ends⟩ := (staged_by_length (V := V) wf hb).solve_ends
    (accumulates_liveVariables g).equations (Analysis.complete_equations wf)
    (Analysis.wired_equations wf) horder nodup ⟨.worklist, none, check⟩
  have outcome_eq := Analysis.outcome_solve (a := liveVariables g) hb ⟨.worklist, none, check⟩
  rw [hsolve] at outcome_eq
  obtain ⟨tally, rfl, -, few⟩ | ⟨limit, hlimit, -⟩ | ⟨-, many⟩ := ends
  · exact ⟨_, outcome_eq, few rfl⟩
  · cases hlimit
  · exact absurd (visits_le_maxCount small) (Nat.not_le_of_lt many)

/-- Whatever edits made the program: if it suits the analysis, the worklist has a result after no
more visits than one pass more than there are nodes would make, however many variables there are. A
limit that allows for so many passes makes no difference to the run. Nodes have 32-bit numbers, so
these visits can be counted. -/
theorem visits_le_of_size {σ : Type} [DefUse σ V] {edits : List (Edit σ)}
    (small : (ControlGraph.ofEdits edits).size < 2 ^ 32)
    {boundary : Fin (ControlGraph.ofEdits edits).toGraph.size}
    (hb : (ControlGraph.ofEdits edits).toGraph.boundary .backward = .ok boundary) (check : Bool) :
    let program := ControlGraph.ofEdits edits
    let solve := fun limit? =>
      (liveVariables program.toLabeledGraph : Analysis NodeId (FactSet V)).solve
        ⟨.worklist, limit?, check⟩ program.toGraph
    ∃ s, (solve none).outcome = .ok s ∧ s.stats.visits = (solve none).visits ∧
      s.stats.visits ≤ program.size * (program.size + 1) ∧
      ∀ limit, program.size + 1 ≤ limit → solve (some limit) = solve none := by
  intro program solve
  have hsize : program.toGraph.size = program.size := program.size_toGraph
  obtain ⟨s, hs, few⟩ := exists_solution_of_length (V := V) (ControlGraph.wellFormed_ofEdits edits)
    (hsize.trans_lt small) hb check
  have counted := (Analysis.counted_of_solve hs).worklist rfl
  have few' : s.stats.visits ≤ program.toGraph.size * (program.toGraph.size + 1) := few
  refine ⟨s, hs, counted.1, hsize ▸ few', fun limit enough => ?_⟩
  refine Analysis.solve_eq_of_passes_le hs (le_trans ?_ enough)
  rw [counted.2, ← hsize]
  exact (ceilDiv_le_iff_le_mul boundary.pos).2 (by rwa [Nat.mul_comm] at few')

theorem visits_le_spinningSum :
    let program := ControlGraph.ofEdits spinningSum
    let solve := fun limit? =>
      (liveVariables program.toLabeledGraph).solve ⟨.worklist, limit?, true⟩ program.toGraph
    ∃ s, (solve none).outcome = .ok s ∧ s.stats.visits ≤ 20 ∧ solve (some 5) = solve none := by
  have boundary :
      (ControlGraph.ofEdits spinningSum).toGraph.boundary .backward = .ok ⟨3, by decide⟩ := by
    decide +kernel
  obtain ⟨s, hs, -, few, allowed⟩ := visits_le_of_size (V := Var) (by decide) boundary true
  exact ⟨s, hs, few, allowed 5 (by decide)⟩

end Liveness

end FlowFacts

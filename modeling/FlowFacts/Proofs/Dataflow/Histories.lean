import FlowFacts.Proofs.Dataflow.Settings
import FlowFacts.Proofs.Equations.Ascent

/-!
# What the visits of a node leave

The history of a node in a run is what its visits left, as the journal has it (`Run.history`). Each
visit forgets one side of the facts and computes both anew. Still the facts of a node only go up, if
meets join facts and transfer functions take nothing away (`Analysis.Ascends`), and a result has
those that the last visit left (`Analysis.history_ascends`).
-/

namespace FlowFacts

variable {ν F : Type} [DecidableEq ν]

/-- What a visit of the node left, if the entry is one. -/
def Entry.left? (v : ν) : Entry ν F → Option (NodeFacts F)
  | visited u facts _ => if u = v then some facts else none
  | running .. | seeded .. | passed .. | enqueued _ | converged _ => none

/-- What the visits of a node left, the earliest first. -/
def Run.history {α : Type} (r : Run ν F α) (v : ν) : List (NodeFacts F) :=
  r.journal.filterMap (Entry.left? v)

theorem Graph.filterMap_left?_entries {g : Graph ν} (nodup : g.nodes.Nodup) (d : Direction)
    (p : Progress g.size F) (i : Fin g.size) :
    (g.entries d p).filterMap (Entry.left? (g.node i)) =
      ((p.visits.filter fun v => v.node = i).map fun v => d.place v.left).reverse := by
  rw [entries, List.filterMap_map, List.filterMap_reverse, Progress.visits]
  congr 1
  induction p.events with
  | nil => rfl
  | cons e events ih =>
    cases e with
    | visited v =>
      by_cases hi : v.node = i
      · simp [Entry.left?, entryOf, Event.visit?, hi, ih]
      · have apart : g.node v.node ≠ g.node i := mt (node_injective nodup).eq_iff.1 hi
        simp [Entry.left?, entryOf, Event.visit?, hi, apart, ih]
    | passed | enqueued => simpa [List.filterMap_cons, Entry.left?, entryOf, Event.visit?] using ih

theorem Direction.place_le_iff [LE F] (d : Direction) {s t : Sides F} :
    (d.place s).before ≤ (d.place t).before ∧ (d.place s).after ≤ (d.place t).after ↔
      s.input ≤ t.input ∧ s.output ≤ t.output := by
  cases d with
  | forward => exact Iff.rfl
  | backward => exact and_comm

namespace Analysis

variable {a : Analysis ν F} {g : Graph ν} {boundary : Fin g.size}

/-- Facts are joined, from a least fact on. At the nodes of the graph, the transfer function leaves
the input side alone and takes nothing away from the output side. It need not be monotone. -/
structure Ascends [LE F] (a : Analysis ν F) (g : Graph ν) : Prop extends Std.IsPartialOrder F where
  initial_le : ∀ x, a.initial ≤ x
  meet_le_iff : ∀ fact target x, a.meet fact target ≤ x ↔ fact ≤ x ∧ target ≤ x
  keeps : ∀ v ∈ g.nodes, ∀ sides, (a.transferSides v sides).1.input = sides.input
  output_le : ∀ v ∈ g.nodes, ∀ sides, sides.output ≤ (a.transferSides v sides).1.output

theorem Ascends.equations [LE F] (ascends : a.Ascends g) : (a.equations g boundary).Ascends where
  meets := by
    have := ascends.toIsPartialOrder
    refine ⟨ascends.initial_le, fun {x x' y y'} hx hy => ?_⟩
    obtain ⟨left, right⟩ := (ascends.meet_le_iff x' y' _).1 (Std.le_refl _)
    exact (ascends.meet_le_iff x y _).2 ⟨Std.le_trans hx left, Std.le_trans hy right⟩
  keeps i := ascends.keeps _ (Graph.node_mem i)
  output_le i := ascends.output_le _ (Graph.node_mem i)

omit [DecidableEq ν] in
theorem Accumulates.ascends [SemilatticeSup F] {f : ν → F → F} (acc : a.Accumulates g f) :
    a.Ascends g where
  initial_le := acc.initial_le
  meet_le_iff fact target x := by rw [acc.meet_eq, sup_le_iff, and_comm]
  keeps v hv sides := by rw [acc.transfer_eq v hv]
  output_le v hv sides := by
    rw [acc.transfer_eq v hv]
    exact le_sup_left

variable [LE F] [DecidableLE F] [DecidableEq F]

theorem history_solve (wf : g.WellFormed) (hb : g.boundary a.direction = .ok boundary)
    (settings : Settings) (i : Fin g.size) :
    (a.solve settings g).history (g.node i) =
      ((((a.equations g boundary).solve settings).1.visits.filter fun v => v.node = i).map
        fun v => a.direction.place v.left).reverse := by
  rw [← Graph.filterMap_left?_entries wf.nodup, Run.history, journal_solve hb]
  cases ((a.equations g boundary).solve settings).2 <;>
    simp [List.filterMap_cons, Entry.left?]

/-- Under either strategy, whatever the limit and the checks, and also in a run that fails: from one
visit of a node to any later one, neither side of its facts shrinks. A result of any analysis has
the facts that the last visit of each node left. -/
theorem history_ascends (wf : g.WellFormed) (a : Analysis ν F) (settings : Settings) :
    (a.Ascends g → ∀ v ∈ g.nodes, ((a.solve settings g).history v).Pairwise fun earlier later =>
      earlier.before ≤ later.before ∧ earlier.after ≤ later.after) ∧
    ∀ s, (a.solve settings g).outcome = .ok s → ∀ v ∈ g.nodes,
      ∃ facts, ((a.solve settings g).history v).getLast? = some facts ∧
        s.facts? v = some facts := by
  constructor
  · intro ascends
    refine Graph.forall_node.2 fun i => ?_
    cases hb : g.boundary a.direction with
    | error cause =>
      simp [Run.history, solve, equations?, hb, Except.map, List.filterMap_cons, Entry.left?]
    | ok boundary =>
      have := ascends.toIsPartialOrder
      have trail := (a.equations g boundary).trail_solve settings
      rw [history_solve wf hb, List.pairwise_reverse, List.pairwise_map]
      refine ((trail.pairwise_left ascends.equations).filter _).imp_of_mem fun hv hu le => ?_
      rw [List.mem_filter, decide_eq_true_iff] at hv hu
      exact (a.direction.place_le_iff).2 (le (hu.2.trans hv.2.symm))
  · intro s hs
    obtain ⟨boundary, last, tally, hb, hrun, rfl⟩ := solve_eq_ok hs
    refine Graph.forall_node.2 fun i => ?_
    have visited := Equations.visited_solve (wired_equations wf) hrun i
    have left := (Equations.trail_of_solve hrun).last_left visited
    refine ⟨a.direction.place (last.store.get i), ?_, facts?_factsOf wf.nodup i⟩
    rw [history_solve wf hb, hrun, List.getLast?_reverse, List.head?_map]
    rw [← Function.comp_def, ← Option.map_map, left]
    rfl

theorem history_spinning :
    let run := passedNodes.solve ⟨.worklist, some 4, true⟩ spinning
    ((run.history 1).Pairwise fun earlier later =>
      earlier.before ≤ later.before ∧ earlier.after ≤ later.after) ∧
    ∃ s facts, run.outcome = .ok s ∧ (run.history 1).getLast? = some facts ∧
      s.facts? 1 = some facts := by
  intro run
  obtain ⟨ascend, last⟩ :=
    history_ascends (g := spinning) (by decide) passedNodes ⟨.worklist, some 4, true⟩
  obtain ⟨s, hs⟩ := exists_eq_ok (x := run.outcome) (by decide +kernel)
  obtain ⟨facts, hlast, hfacts⟩ := last s hs 1 (by decide)
  exact ⟨ascend (accumulates_passedNodes spinning).ascends 1 (by decide), s, facts, hs,
    hlast, hfacts⟩

end Analysis

end FlowFacts

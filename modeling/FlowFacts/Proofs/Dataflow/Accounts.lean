import FlowFacts.Proofs.Dataflow.Histories
import FlowFacts.Proofs.Equations.Accounts

/-!
# The statistics of a result and its journal

What a result says about the work that it took can be told from the journal of its run
(`Analysis.accounts_of_solve`). All visits are in the journal. Rounds visit every node once a pass,
and the passes are numbered there, all but the last one with a change. With the worklist there is a
visit for each node, and one more for each time that a node was put in the queue.
-/

namespace FlowFacts

/-! ### More that a journal counts -/

section

variable {ν F : Type}

/-- The number and the report of a pass, if the entry is one. -/
def Entry.pass? : Entry ν F → Option (Nat × Change)
  | passed number report => some (number, report)
  | running .. | seeded .. | visited .. | enqueued _ | converged _ => none

def Entry.isEnqueued : Entry ν F → Bool
  | enqueued _ => true
  | running .. | seeded .. | visited .. | passed .. | converged _ => false

/-- The passes that were completed in a run, with their numbers and reports, the earliest first. -/
def Run.passReports {α : Type} (r : Run ν F α) : List (Nat × Change) :=
  r.journal.filterMap Entry.pass?

/-- How often a node was put in the queue in a run. -/
def Run.enqueuings {α : Type} (r : Run ν F α) : Nat := r.journal.countP Entry.isEnqueued

namespace Graph

variable {g : Graph ν}

theorem filterMap_pass?_entries (d : Direction) (p : Progress g.size F) :
    (g.entries d p).filterMap Entry.pass? = p.passReports.reverse := by
  rw [entries, List.filterMap_map, List.filterMap_reverse, Progress.passReports]
  congr 2
  funext e
  cases e <;> rfl

theorem countP_isEnqueued_entries (d : Direction) (p : Progress g.size F) :
    (g.entries d p).countP Entry.isEnqueued = p.enqueuings := by
  rw [entries, List.countP_map, List.countP_reverse, Progress.enqueuings]
  congr 1
  funext e
  cases e <;> rfl

end Graph

end

namespace Analysis

variable {ν F : Type} [DecidableEq ν] [LE F] [DecidableLE F] [DecidableEq F] {a : Analysis ν F}
  {g : Graph ν} {boundary : Fin g.size} {settings : Settings}

theorem passReports_solve (hb : g.boundary a.direction = .ok boundary) (settings : Settings) :
    (a.solve settings g).passReports =
      ((a.equations g boundary).solve settings).1.passReports.reverse := by
  rw [← Graph.filterMap_pass?_entries a.direction, Run.passReports, journal_solve hb]
  cases ((a.equations g boundary).solve settings).2 <;> simp [List.filterMap_cons, Entry.pass?]

theorem enqueuings_solve (hb : g.boundary a.direction = .ok boundary) (settings : Settings) :
    (a.solve settings g).enqueuings = ((a.equations g boundary).solve settings).1.enqueuings := by
  rw [← Graph.countP_isEnqueued_entries a.direction, Run.enqueuings, journal_solve hb]
  cases ((a.equations g boundary).solve settings).2 <;> simp [Entry.isEnqueued]

/-- A node is visited as often as its number is among those of the visits. -/
theorem length_history_solve (wf : g.WellFormed) (hb : g.boundary a.direction = .ok boundary)
    (settings : Settings) (i : Fin g.size) :
    ((a.solve settings g).history (g.node i)).length =
      (((a.equations g boundary).solve settings).1.visits.map Visit.node).count i := by
  rw [history_solve wf hb, List.length_reverse, List.length_map, List.count, List.countP_map,
    ← List.countP_eq_length_filter]
  congr 1

/-- The visits that a result counts are those of its run. -/
theorem visits_eq_of_solve {s : Solution ν F} (h : (a.solve settings g).outcome = .ok s) :
    s.stats.visits = (a.solve settings g).visits := by
  obtain ⟨-, worth⟩ := counted_of_solve h
  obtain ⟨boundary, last, tally, hb, hrun, rfl⟩ := solve_eq_ok h
  obtain ⟨order, -, ⟨-, rounds⟩ | ⟨hworklist, -⟩⟩ := Equations.solve_eq_ok hrun
  · obtain ⟨s, inOrder, -, rfl, rfl⟩ := Equations.inOrder_of_solveInRounds rounds
    rw [visits_solve hb, hrun, inOrder.length_visits]
    exact inOrder.counted
  · exact (worth hworklist).1

/-- What a result says about its work is what the journal of its run has. All visits are there.
Rounds visit each node once a pass; the passes are numbered, and only the last one, which confirms
the result, has no change. With the worklist each node is visited, and again for each time that a
node is put in the queue; so many passes are what the visits are worth, rounded up. -/
theorem accounts_of_solve (wf : g.WellFormed) {s : Solution ν F}
    (h : (a.solve settings g).outcome = .ok s) :
    (a.solve settings g).visits = s.stats.visits ∧
      (settings.strategy = .roundRobin →
        0 < s.stats.passes ∧ s.stats.visits = g.size * s.stats.passes ∧
        (∀ v ∈ g.nodes, ((a.solve settings g).history v).length = s.stats.passes) ∧
        (a.solve settings g).passReports = reportsOf s.stats.passes .unchanged) ∧
      (settings.strategy = .worklist →
        (∀ v ∈ g.nodes, 0 < ((a.solve settings g).history v).length) ∧
        s.stats.visits = g.size + (a.solve settings g).enqueuings ∧
        s.stats.passes = s.stats.visits ⌈/⌉ g.size) := by
  have counted := visits_eq_of_solve h
  obtain ⟨-, worth⟩ := counted_of_solve h
  obtain ⟨boundary, last, tally, hb, hrun, rfl⟩ := solve_eq_ok h
  have visited := Equations.visited_solve (wired_equations wf) hrun
  obtain ⟨order, horder, hschedule⟩ := Equations.solve_eq_ok hrun
  have nodup : order.Nodup := Graph.nodup_of_visitOrder horder
  have full : order.length = g.size := (wired_equations wf).length_order horder nodup
  refine ⟨counted.symm, ?_⟩
  rw [enqueuings_solve hb, passReports_solve hb, Graph.forall_node, Graph.forall_node]
  simp only [length_history_solve wf hb, hrun]
  obtain ⟨hrounds, rounds⟩ | ⟨hworklist, worklist⟩ := hschedule
  · have reports := Equations.passReports_of_solveInRounds rounds
    obtain ⟨s, inOrder, settled, rfl, rfl⟩ := Equations.inOrder_of_solveInRounds rounds
    have each : s.tally.visits = g.size * s.tally.passes := by rw [inOrder.counted, full]
    refine ⟨fun _ => ⟨?_, each, fun i => ?_, reports⟩, fun other => ?_⟩
    · exact Nat.pos_of_ne_zero (inOrder.begun settled)
    · exact inOrder.count_visits nodup ((wired_equations wf).covers horder i)
    · cases hrounds.symm.trans other
  · have balance := Equations.visits_of_solveByWorklist worklist
    rw [full] at balance
    refine ⟨fun other => ?_, fun _ => ⟨fun i => ?_, balance, (worth hworklist).2⟩⟩
    · cases hworklist.symm.trans other
    · obtain ⟨v, hv, hnode⟩ := visited i
      exact List.count_pos_iff.2 (List.mem_map.2 ⟨v, hv, hnode⟩)

theorem accounts_spinning :
    let rounds := passedNodes.solve ⟨.roundRobin, none, true⟩ spinning
    let worklist := passedNodes.solve ⟨.worklist, none, true⟩ spinning
    rounds.visits = 9 ∧ (rounds.history 1).length = 3 ∧
      rounds.passReports = [(1, .changed), (2, .changed), (3, .unchanged)] ∧
      worklist.visits = 6 ∧ worklist.enqueuings = 3 := by
  intro rounds worklist
  have wf : spinning.WellFormed := by decide
  obtain ⟨s, hs, passes⟩ : ∃ s, rounds.outcome = .ok s ∧ s.stats.passes = 3 := by decide +kernel
  obtain ⟨t, ht, visits⟩ : ∃ t, worklist.outcome = .ok t ∧ t.stats.visits = 6 := by decide +kernel
  obtain ⟨visited, accounts, -⟩ := accounts_of_solve wf hs
  obtain ⟨-, counted, each, reports⟩ := accounts rfl
  obtain ⟨visited', -, accounts'⟩ := accounts_of_solve wf ht
  obtain ⟨-, balance, -⟩ := accounts' rfl
  rw [passes] at counted each reports
  have balance : 6 = 3 + worklist.enqueuings := visits.symm.trans balance
  exact ⟨visited.trans counted, each 1 (by decide), reports, visited'.trans visits, by omega⟩

end Analysis

end FlowFacts

import FlowFacts.Proofs.Dataflow.Settings
import FlowFacts.Proofs.Equations.Waves
import FlowFacts.Proofs.LiveVariables.Paths

/-!
# What the worklist takes where rounds have a result

The worklist visits only nodes that have something new to collect, but that can make it visit more
nodes than rounds do, and fail under a limit that rounds keep to (`Liveness.outrun_threeLoops`). It
is never worse than rounds that have a result after two passes, and for each further pass of the
rounds it takes as many passes as there are nodes at most (`Analysis.rounds_caught_up`).
-/

namespace FlowFacts

namespace Analysis

variable {ν F : Type} [DecidableEq ν] [SemilatticeSup F] [DecidableLE F] [DecidableEq F]
  {a : Analysis ν F} {g : Graph ν} {f : ν → F → F}

open Equations in
/-- If rounds have a result, so has the worklist, and with the same facts: under the same limit and
after no more visits, if the rounds made two passes at most, and in any case if it is allowed two
passes and as many for each further pass of the rounds as there are nodes. -/
theorem rounds_caught_up (wf : g.WellFormed) (acc : a.Accumulates g f) {limit? : Option Nat}
    {check : Bool}
    {s : Solution ν F} (h : (a.solve ⟨.roundRobin, limit?, check⟩ g).outcome = .ok s) :
    (s.stats.passes ≤ 2 → ∃ t, (a.solve ⟨.worklist, limit?, check⟩ g).outcome = .ok t ∧
      t.stats.visits ≤ s.stats.visits ∧ ∀ v ∈ g.nodes, t.facts? v = s.facts? v) ∧
    ∀ limit'?, (∀ limit', limit'? = some limit' → phasesFor g.size s.stats.passes ≤ limit') →
      g.size * phasesFor g.size s.stats.passes < 2 ^ 64 →
      ∃ t, (a.solve ⟨.worklist, limit'?, check⟩ g).outcome = .ok t ∧
        t.stats.visits ≤ g.size * phasesFor g.size s.stats.passes ∧
        ∀ v ∈ g.nodes, t.facts? v = s.facts? v := by
  obtain ⟨boundary, last, tally, hb, hrun, rfl⟩ := solve_eq_ok h
  obtain ⟨order, horder, nodup⟩ := wf.exists_visitOrder a.direction boundary
  obtain ⟨⟨visits, begun, countable, allowed⟩, ends⟩ :=
    catches_up acc.equations (complete_equations wf) (wired_equations wf) horder nodup hrun
  -- Enough is allowed, so that none of the errors is possible.
  have result :
      ∀ limit'?, (∀ limit', limit'? = some limit' → phasesFor g.size tally.passes ≤ limit') →
        g.size * phasesFor g.size tally.passes ≤ maxCount →
        ∃ t, (a.solve ⟨.worklist, limit'?, check⟩ g).outcome = .ok t ∧
          t.stats.visits ≤ g.size * phasesFor g.size tally.passes := by
    intro limit'? enough few
    obtain ⟨last', outcome, hsolve, ends⟩ := ends limit'?
    have outcome_eq := outcome_solve (a := a) hb ⟨.worklist, limit'?, check⟩
    rw [hsolve] at outcome_eq
    obtain ⟨tally', rfl, hvisits⟩ | ⟨limit', hlimit', -, short⟩ | ⟨-, many⟩ := ends
    · exact ⟨_, outcome_eq, hvisits⟩
    · rcases lt_or_lt_of_min_lt short with short | many
      · exact absurd (enough limit' hlimit') (Nat.not_le_of_lt short)
      · exact absurd few (Nat.not_le_of_lt many)
    · exact absurd few (Nat.not_le_of_lt many)
  constructor
  · intro few
    have phases : phasesFor g.size tally.passes = tally.passes := by
      have few : tally.passes ≤ 2 := few
      rw [phasesFor, Nat.sub_eq_zero_of_le few, Nat.mul_zero, Nat.zero_add, Nat.min_eq_left few]
    rw [phases] at result
    obtain ⟨t, ht, hvisits⟩ := result limit? allowed countable
    exact ⟨t, ht, hvisits.trans_eq visits.symm, fun v hv => facts?_eq_of_solve wf acc h ht hv⟩
  · intro limit'? enough few
    obtain ⟨t, ht, hvisits⟩ := result limit'? enough (Nat.le_sub_one_of_lt few)
    exact ⟨t, ht, hvisits, fun v hv => facts?_eq_of_solve wf acc h ht hv⟩

end Analysis

namespace Liveness

/-- Three loops in a row, each with a condition of its own. The exit follows the first loop, and the
entry comes before the last one. -/
def threeLoops : List (Edit Statement) :=
  [.push (.return none), .push .nop, .push .nop, .push .nop, .push (.branch (.var ⟨1⟩)),
    .push (.branch (.var ⟨2⟩)), .push (.branch (.var ⟨3⟩)), .push .nop,
    .connectChain [⟨4⟩, ⟨1⟩, ⟨4⟩], .connectChain [⟨5⟩, ⟨2⟩, ⟨5⟩], .connectChain [⟨6⟩, ⟨3⟩, ⟨6⟩],
    .connectChain [⟨7⟩, ⟨3⟩, ⟨2⟩, ⟨1⟩, ⟨0⟩], .setEntry ⟨7⟩, .setExit ⟨0⟩]

theorem caught_up_loops :
    let solve := fun edits strategy limit =>
      (liveVariables (ControlGraph.ofEdits edits).toLabeledGraph).solve ⟨strategy, some limit, true⟩
        (ControlGraph.ofEdits edits).toGraph
    (∃ s t, (solve spinningSum .roundRobin 2).outcome = .ok s ∧
      (solve spinningSum .worklist 2).outcome = .ok t ∧ t.stats.visits ≤ s.stats.visits) ∧
    ∃ s t, (solve threeLoops .roundRobin 3).outcome = .ok s ∧
      (solve threeLoops .worklist 10).outcome = .ok t ∧
      ∀ v ∈ (ControlGraph.ofEdits threeLoops).nodes, t.facts? v = s.facts? v := by
  intro solve
  constructor
  · obtain ⟨s, hs, few⟩ :
        ∃ s, (solve spinningSum .roundRobin 2).outcome = .ok s ∧ s.stats.passes ≤ 2 := by
      decide +kernel
    obtain ⟨t, ht, fewer, -⟩ :=
      (Analysis.rounds_caught_up (ControlGraph.wellFormed_ofEdits spinningSum)
        (accumulates_liveVariables _) hs).1 few
    exact ⟨s, t, hs, ht, fewer⟩
  · obtain ⟨s, hs, passes⟩ :
        ∃ s, (solve threeLoops .roundRobin 3).outcome = .ok s ∧ s.stats.passes = 3 := by
      decide +kernel
    have allowed := (Analysis.rounds_caught_up (ControlGraph.wellFormed_ofEdits threeLoops)
      (accumulates_liveVariables _) hs).2 (some 10)
    rw [passes] at allowed
    have phases : Equations.phasesFor (ControlGraph.ofEdits threeLoops).toGraph.size 3 = 10 := by
      decide +kernel
    rw [phases] at allowed
    obtain ⟨t, ht, -, same⟩ :=
      allowed (fun limit hlimit => (Option.some.inj hlimit).le) (by decide +kernel)
    exact ⟨s, t, hs, ht, same⟩

/-- The conditions come to the entry in as many waves as there are loops, one behind the other,
while a pass of the rounds takes them there all at once. -/
theorem outrun_threeLoops :
    let program := ControlGraph.ofEdits threeLoops
    let solve := fun strategy limit? => (liveVariables program.toLabeledGraph).solve
      ⟨strategy, limit?, true⟩ program.toGraph
    program.toGraph.WellFormed ∧
      (liveVariables program.toLabeledGraph).Accumulates program.toGraph
        (liveBefore program.toLabeledGraph) ∧
      (∃ s, (solve .roundRobin (some 3)).outcome = .ok s ∧ s.stats.visits = 24) ∧
      (solve .worklist (some 3)).outcome = .error ⟨"liveness", .backward, .limitReached 3⟩ ∧
      ∃ t, (solve .worklist none).outcome = .ok t ∧ t.stats.visits = 25 := by
  intro program solve
  obtain ⟨t, ht, visits, many⟩ : ∃ t, (solve .worklist none).outcome = .ok t ∧ t.stats.visits = 25 ∧
      3 < t.stats.passes := by decide +kernel
  refine ⟨ControlGraph.wellFormed_ofEdits threeLoops,
    accumulates_liveVariables program.toLabeledGraph,
    by decide +kernel, (Analysis.stopped_of_lt_passes ht many).outcome, t, ht, visits⟩

end Liveness

end FlowFacts

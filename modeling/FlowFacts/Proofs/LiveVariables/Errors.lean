import FlowFacts.Proofs.Dataflow.Settings
import FlowFacts.Proofs.Dataflow.Validation
import FlowFacts.Proofs.LiveVariables.Delay

/-!
# Which errors the analysis of live variables has

Either the program does not suit the analysis, and then the run fails with the reason why not, or it
has a result or reaches the limit on passes (`Liveness.outcome_cases`). Nothing else can happen: the
transfer function keeps its contract, no question about the program remains unanswered, and there
are fewer visits than can be counted. The check of the transfer function makes no difference
(`Liveness.errors_of_solve`).
-/

namespace FlowFacts

namespace Liveness

variable {ν ℓ V : Type} [Ord V] [Std.TransOrd V] [Std.LawfulEqOrd V] [Inspect V] [Inspect ν]
  [DefUse ℓ V] [DecidableEq ν] {g : LabeledGraph ν ℓ}

section

variable (wf : g.toGraph.WellFormed) (anchored : g.toGraph.Anchored)
  (small : g.toGraph.size < 2 ^ 32) (settings : Settings)
include wf anchored small

/-- A run fails because the program does not suit the analysis, or it has a result or reaches the
limit. -/
theorem outcome_cases :
    (∃ cause, g.toGraph.Unsuited .backward cause ∧
      ((liveVariables g : Analysis ν (FactSet V)).solve settings g.toGraph).outcome =
        .error ⟨"liveness", .backward, cause⟩) ∨
    (∀ cause, ¬ g.toGraph.Unsuited .backward cause) ∧
      ((∃ s, ((liveVariables g : Analysis ν (FactSet V)).solve settings g.toGraph).outcome =
          .ok s) ∨
        ∃ limit, settings.maxPasses = some limit ∧
          ((liveVariables g : Analysis ν (FactSet V)).solve settings g.toGraph).outcome =
            .error ⟨"liveness", .backward, .limitReached limit⟩) := by
  cases hb : g.toGraph.boundary .backward with
  | error cause =>
    refine .inl ⟨cause, (wf.boundary_eq_error_iff anchored).1 hb, ?_⟩
    have hb' : g.toGraph.boundary (liveVariables g : Analysis ν (FactSet V)).direction =
        .error cause := hb
    simp only [Analysis.solve, Analysis.equations?, hb', Except.map]
    rfl
  | ok boundary =>
    have suited : ∀ cause, ¬ g.toGraph.Unsuited .backward cause := by
      intro cause unsuited
      cases hb.symm.trans ((wf.boundary_eq_error_iff anchored).2 unsuited)
    obtain ⟨order, horder, nodup⟩ := wf.exists_visitOrder .backward boundary
    obtain ⟨last, outcome, hsolve, ends⟩ := (staged_by_length (V := V) wf hb).solve_ends
      (accumulates_liveVariables g).equations (Analysis.complete_equations wf)
      (Analysis.wired_equations wf) horder nodup settings
    have outcome_eq := Analysis.outcome_solve (a := liveVariables g) hb settings
    rw [hsolve] at outcome_eq
    refine .inr ⟨suited, ?_⟩
    obtain ⟨tally, rfl, -⟩ | ⟨limit, hlimit, rfl, -⟩ | ⟨-, many⟩ := ends
    · exact .inl ⟨_, outcome_eq⟩
    · exact .inr ⟨limit, hlimit, outcome_eq⟩
    · exact absurd (visits_le_maxCount small) (Nat.not_le_of_lt many)

/-- Apart from the limit, what a run fails with is why the program does not suit the analysis. -/
theorem outcome_eq_error_iff {cause : Cause ν} (apart : ∀ limit, cause ≠ .limitReached limit) :
    ((liveVariables g : Analysis ν (FactSet V)).solve settings g.toGraph).outcome =
      .error ⟨"liveness", .backward, cause⟩ ↔ g.toGraph.Unsuited .backward cause := by
  rcases outcome_cases (V := V) wf anchored small settings with
    ⟨cause', unsuited, h⟩ | ⟨suited, ⟨s, h⟩ | ⟨limit, -, h⟩⟩
  · rw [h, Except.error.injEq, Failure.mk.injEq]
    simp only [true_and]
    exact ⟨fun same => same ▸ unsuited, unsuited.unique anchored⟩
  · rw [h]
    exact iff_of_false nofun (suited cause)
  · rw [h]
    refine iff_of_false (fun same => ?_) (suited cause)
    cases same
    exact apart limit rfl

end

/-- Whatever edits made the program and whatever the settings. A run fails because there are no
nodes, or else because no path leads from the entry to the exit, or else because the exit has
successors; the failure names the exit and says how many successors there are. If none of this is
so, it has a result or, under a limit, may reach it. The check of the transfer function makes no
difference to any of it. Nodes have 32-bit numbers, so the visits that may be needed can be
counted. -/
theorem errors_of_solve {σ : Type} [DefUse σ V] (edits : List (Edit σ))
    (small : (ControlGraph.ofEdits edits).size < 2 ^ 32) (settings : Settings) :
    let program := ControlGraph.ofEdits edits
    let run := (liveVariables program.toLabeledGraph : Analysis NodeId (FactSet V)).solve settings
      program.toGraph
    let fails := fun cause : Cause NodeId => run.outcome = .error ⟨"liveness", .backward, cause⟩
    (fails .emptyGraph ↔ program.nodes = []) ∧
    (∀ x, fails (.unreachableBoundary x) ↔ program.exit = .ok x ∧
      ∃ u, program.entry = .ok u ∧ ¬ program.toGraph.Reachable u x) ∧
    (∀ x count, fails (.boundaryHasFlowEdges x count) ↔ program.exit = .ok x ∧
      (∃ u, program.entry = .ok u ∧ program.toGraph.Reachable u x) ∧
      ∃ ws, program.successors x = .ok ws ∧ ws.length = count ∧ 0 < count) ∧
    ((∃ s, run.outcome = .ok s) ∨ fails .emptyGraph ∨ (∃ x, fails (.unreachableBoundary x)) ∨
      (∃ x count, fails (.boundaryHasFlowEdges x count)) ∨
      ∃ limit, settings.maxPasses = some limit ∧ fails (.limitReached limit)) ∧
    ∀ check, (liveVariables program.toLabeledGraph : Analysis NodeId (FactSet V)).solve
      { settings with checkTransfer := check } program.toGraph = run := by
  intro program run fails
  have wf : program.toGraph.WellFormed := ControlGraph.wellFormed_ofEdits edits
  have anchored : program.toGraph.Anchored := ControlGraph.anchored_ofEdits edits
  have small : program.toGraph.size < 2 ^ 32 := by rwa [ControlGraph.size_toGraph]
  have fails_iff : ∀ cause, (∀ limit, cause ≠ .limitReached limit) →
      (fails cause ↔ program.toGraph.Unsuited .backward cause) :=
    fun _ => outcome_eq_error_iff wf anchored small settings
  refine ⟨?_, fun x => ?_, fun x count => ?_, ?_, fun check => ?_⟩
  · exact (fails_iff .emptyGraph nofun).trans Graph.unsuited_emptyGraph_iff
  · exact (fails_iff (.unreachableBoundary x) nofun).trans Graph.unsuited_unreachableBoundary_iff
  · exact (fails_iff (.boundaryHasFlowEdges x count) nofun).trans
      Graph.unsuited_boundaryHasFlowEdges_iff
  · rcases outcome_cases (V := V) wf anchored small settings with
      ⟨cause, unsuited, h⟩ | ⟨-, ok | limit⟩
    · cases unsuited with
      | empty => exact .inr (.inl h)
      | unreachable => exact .inr (.inr (.inl ⟨_, h⟩))
      | fed => exact .inr (.inr (.inr (.inl ⟨_, _, h⟩)))
    · exact .inl ok
    · exact .inr (.inr (.inr (.inr limit)))
  · exact (accumulates_liveVariables program.toLabeledGraph).grows.solve_set_check settings check

/-- Two statements that take turns for ever, so that the last one has a successor. -/
def alternating : List (Edit Statement) :=
  [.push .nop, .push .nop, .connectChain [⟨0⟩, ⟨1⟩, ⟨0⟩]]

theorem errors_alternating :
    (ControlGraph.ofEdits alternating).size < 2 ^ 32 ∧
      ((liveVariables (ControlGraph.ofEdits alternating).toLabeledGraph).solve {}
        (ControlGraph.ofEdits alternating).toGraph).outcome =
          .error ⟨"liveness", .backward, .boundaryHasFlowEdges ⟨1⟩ 1⟩ := by
  have small : (ControlGraph.ofEdits alternating).size < 2 ^ 32 := by decide
  have path : (ControlGraph.ofEdits alternating).toGraph.Path ⟨0⟩ [⟨0⟩] ⟨1⟩ :=
    .cons (by decide) (.nil _)
  obtain ⟨-, -, fed, -⟩ := errors_of_solve (V := Var) alternating small {}
  exact ⟨small, (fed ⟨1⟩ 1).2 ⟨rfl, ⟨⟨0⟩, rfl, [⟨0⟩], path⟩, [⟨0⟩], rfl, rfl, by decide⟩⟩

end Liveness

end FlowFacts

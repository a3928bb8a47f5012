import FlowFacts.Catalog
import FlowFacts.Proofs.Dataflow.LeastSolution

/-!
# Sessions

A session has one solver and one catalog, which are used again and again (`Session.perform`). The
calls that were made tell what has become of them: the settings of the solver stay as they are, its
state says how the last call that started a run ended (`lastRun?`), and the catalog has for each
kind the analysis that was registered last (`lastRegistered?`). This is shown of one call after the
other (`Session.Tracks`), and it decides what a request for facts of some type is answered at any
time (`Session.answers_of_calls`).
-/

namespace FlowFacts

/-! ### Calls -/

/-- An analysis and a graph to run it over. -/
structure Task where
  Node : Type
  [decidableEq : DecidableEq Node]
  facts : FactType
  analysis : Analysis Node facts.Fact
  graph : Graph Node

/-- A graph of which the live variables can be computed. -/
structure Subject where
  Node : Type
  [decidableEq : DecidableEq Node]
  [textOfNode : Inspect Node]
  Label : Type
  Var : Type
  [ord : Ord Var]
  [transOrd : Std.TransOrd Var]
  [lawfulEqOrd : Std.LawfulEqOrd Var]
  [textOfVar : Inspect Var]
  [defUse : DefUse Label Var]
  graph : LabeledGraph Node Label

attribute [instance] Task.decidableEq Subject.decidableEq Subject.textOfNode Subject.ord
  Subject.transOrd Subject.lawfulEqOrd Subject.textOfVar Subject.defUse

/-- What can be asked for in a session. -/
inductive Call (ν ℓ : Type) {κ : Type} (type : κ → FactType) : Type 1 where
  | solve (task : Task)
  /-- To verify given facts, which takes nothing of the solver and leaves nothing there. -/
  | verify (task : Task) (s : Solution task.Node task.facts.Fact)
  | computeLive (subject : Subject)
  | register (kind : AnalysisKind) (r : Registration ν ℓ type)
  | run (kind : AnalysisKind) (g : LabeledGraph ν ℓ)
  /-- To run the analysis of a kind, for facts of the type of the code. -/
  | runAs (kind : AnalysisKind) (code : κ) (g : LabeledGraph ν ℓ)

variable {ν ℓ κ : Type} {type : κ → FactType}

/-- The analysis of a kind that was registered last, if there was one. The latest call comes
first. -/
def lastRegistered? (kind : AnalysisKind) : List (Call ν ℓ type) → Option (Registration ν ℓ type)
  | [] => none
  | .register kind' r :: earlier => if kind = kind' then some r else lastRegistered? kind earlier
  | _ :: earlier => lastRegistered? kind earlier

variable [DecidableEq ν]

/-- Whether an analysis comes to a result over a labeled graph. -/
def Registration.succeeds (r : Registration ν ℓ type) (settings : Settings)
    (g : LabeledGraph ν ℓ) : Bool :=
  ((r.analysis g).solve settings g.toGraph).outcome.isOk

/-- Whether a call comes to a result, if it starts a run. That depends on the analyses that are
registered. -/
def Call.run? (settings : Settings) (registered? : AnalysisKind → Option (Registration ν ℓ type)) :
    Call ν ℓ type → Option Bool
  | .solve task => some (task.analysis.solve settings task.graph).outcome.isOk
  | .computeLive subject =>
    some ((liveVariables subject.graph).solve settings subject.graph.toGraph).outcome.isOk
  | .run kind g | .runAs kind _ g => (registered? kind).map fun r => r.succeeds settings g
  | .verify .. | .register .. => none

/-- Whether the last call that started a run came to a result, if there was one. -/
def lastRun? (settings : Settings) : List (Call ν ℓ type) → Option Bool
  | [] => none
  | call :: earlier =>
    (call.run? settings fun kind => lastRegistered? kind earlier).or (lastRun? settings earlier)

namespace Solver

/-- The state of a solver whose last run came to a result or did not, or that has made none. -/
def State.ofRun : Option Bool → State
  | some true => .converged
  | some false | none => .uninitialized

/-- A solver after a run, or the same solver if there was none. -/
def afterRun (s : Solver) : Option Bool → Solver
  | none => s
  | some ok => ⟨s.settings, .ofRun (some ok)⟩

theorem stateAfter_eq {ε α : Type} (outcome : Except ε α) :
    stateAfter outcome = .ofRun (some outcome.isOk) := by
  cases outcome <;> rfl

section

variable {F : Type} [LE F] [DecidableLE F] [DecidableEq F] (s : Solver) (a : Analysis ν F)
  (g : Graph ν)

theorem fst_solve : (s.solve a g).1 = ⟨s.settings, stateAfter (s.solve a g).2.outcome⟩ := rfl

theorem afterRun_solve :
    (s.solve a g).1 = s.afterRun (some (a.solve s.settings g).outcome.isOk) := by
  rw [fst_solve, stateAfter_eq]
  rfl

end

end Solver

/-! ### What a catalog does -/

namespace Catalog

variable {c : Catalog ν ℓ type} {kind : AnalysisKind} {r : Registration ν ℓ type} {solver : Solver}
  {g : LabeledGraph ν ℓ}

section

variable [Inspect ν]

/-- A run of a kind that has no analysis is none, and the solver is left alone. -/
theorem run_of_none (h : c.registered? kind = none) :
    c.run kind solver g = (solver, ⟨[], .error (.unregistered kind)⟩) := by
  rw [run, h]

theorem run_of_some (h : c.registered? kind = some r) :
    (c.run kind solver g).1 = (solver.solve (r.analysis g) g.toGraph).1 ∧
      (c.run kind solver g).2.value =
        ((solver.solve (r.analysis g) g.toGraph).2.outcome.map (⟨r.code, ·⟩)).mapError .failed := by
  rw [run, h]
  exact ⟨rfl, rfl⟩

theorem fst_run (c : Catalog ν ℓ type) (kind : AnalysisKind) (solver : Solver)
    (g : LabeledGraph ν ℓ) : (c.run kind solver g).1 =
      solver.afterRun ((c.registered? kind).map fun r => r.succeeds solver.settings g) := by
  cases h : c.registered? kind with
  | none =>
    rw [run_of_none h]
    rfl
  | some r =>
    rw [(run_of_some h).1, Solver.afterRun_solve]
    rfl

variable [DecidableEq κ] {code : κ}

theorem runAs_of_none (h : c.registered? kind = none) :
    c.runAs kind code solver g = (solver, ⟨[], .error (.unregistered kind)⟩) := by
  rw [runAs, run_of_none h]
  rfl

theorem runAs_of_error (h : c.registered? kind = some r) {failure : Failure ν}
    (hrun : (solver.solve (r.analysis g) g.toGraph).2.outcome = .error failure) :
    (c.runAs kind code solver g).2.value = .error (.failed failure) := by
  change (c.run kind solver g).2.value.bind _ = _
  rw [(run_of_some h).2, hrun]
  rfl

/-- A result is handed over if its facts are of the type that was asked for. -/
theorem runAs_of_ok (h : c.registered? kind = some r) {s : Solution ν (type r.code).Fact}
    (hrun : (solver.solve (r.analysis g) g.toGraph).2.outcome = .ok s) :
    (c.runAs kind code solver g).2.value =
      if same : r.code = code then .ok (same ▸ s) else .error (.typeMismatch kind) := by
  change (c.run kind solver g).2.value.bind _ = _
  rw [(run_of_some h).2, hrun]
  dsimp only [Except.map, Except.mapError, Except.bind, TypedSolution.as?]
  by_cases same : r.code = code
  · rw [dif_pos same, dif_pos same]
  · rw [dif_neg same, dif_neg same]

end

end Catalog

/-! ### What the calls of a session do -/

/-- A solver and a catalog. -/
structure Session (ν ℓ : Type) {κ : Type} (type : κ → FactType) where
  solver : Solver
  catalog : Catalog ν ℓ type

variable [Inspect ν] [DecidableEq κ]

namespace Session

/-- What a call makes of the solver and of the catalog. -/
def perform (s : Session ν ℓ type) : Call ν ℓ type → Session ν ℓ type
  | .solve task => { s with solver := (s.solver.solve task.analysis task.graph).1 }
  | .verify .. => s
  | .computeLive subject => { s with solver := (Liveness.computeWith s.solver subject.graph).1 }
  | .register kind r => { s with catalog := (s.catalog.register kind r).value }
  | .run kind g => { s with solver := (s.catalog.run kind s.solver g).1 }
  | .runAs kind code g => { s with solver := (s.catalog.runAs kind code s.solver g).1 }

/-- A new solver and a new catalog after some calls, the latest of which comes first. -/
def after (settings : Settings) : List (Call ν ℓ type) → Session ν ℓ type
  | [] => ⟨{ settings }, ∅⟩
  | call :: earlier => (after settings earlier).perform call

/-- A call that starts a run sets the state of the solver, and any other call leaves the solver
alone. -/
theorem solver_perform (s : Session ν ℓ type) (call : Call ν ℓ type) :
    (s.perform call).solver =
      s.solver.afterRun (call.run? s.solver.settings s.catalog.registered?) := by
  cases call with
  | solve task => exact s.solver.afterRun_solve task.analysis task.graph
  | verify => rfl
  | computeLive subject =>
    exact s.solver.afterRun_solve (liveVariables subject.graph) subject.graph.toGraph
  | register => rfl
  | run kind g => exact s.catalog.fst_run kind s.solver g
  | runAs kind code g => exact s.catalog.fst_run kind s.solver g

/-- A session is as the calls that were made have it. -/
structure Tracks (settings : Settings) (calls : List (Call ν ℓ type))
    (s : Session ν ℓ type) : Prop where
  kept : s.solver.settings = settings
  state : s.solver.state = .ofRun (lastRun? settings calls)
  registered : ∀ kind, s.catalog.registered? kind = lastRegistered? kind calls

theorem Tracks.perform {settings : Settings} {calls : List (Call ν ℓ type)} {s : Session ν ℓ type}
    (h : Tracks settings calls s) (call : Call ν ℓ type) :
    Tracks settings (call :: calls) (s.perform call) := by
  have solver := solver_perform s call
  rw [h.kept, funext h.registered] at solver
  constructor
  · rw [solver]
    cases call.run? settings fun kind => lastRegistered? kind calls with
    | none => exact h.kept
    | some ok => exact h.kept
  · rw [solver, lastRun?]
    cases call.run? settings fun kind => lastRegistered? kind calls with
    | none => exact h.state
    | some ok => rfl
  · intro kind
    cases call with
    | register kind' r =>
      change (if kind = kind' then some r else s.catalog.registered? kind) = _
      rw [h.registered]
      rfl
    | _ => exact h.registered kind

theorem tracks_after (settings : Settings) (calls : List (Call ν ℓ type)) :
    Tracks settings calls (after settings calls) := by
  induction calls with
  | nil => exact ⟨rfl, rfl, fun _ => rfl⟩
  | cons call earlier ih => exact ih.perform call

/-- Whatever calls were made with a new solver and a new catalog: the solver has its settings still,
and its state says that the last call that started a run came to a result, or that it did not, or
that there was none. A request for facts of some type is turned down, and the solver left alone, if
no analysis of the kind was registered. Else the one that was registered last is run. If it fails,
that is the answer, and if it has facts of another type, the answer says so, though the run had a
result. If they are of that type, the answer is the result. -/
theorem answers_of_calls (settings : Settings) (calls : List (Call ν ℓ type)) :
    let s := after settings calls
    s.solver.settings = settings ∧
      s.solver.state =
        (if lastRun? settings calls = some true then .converged else .uninitialized) ∧
      ∀ kind code g,
        let answer := s.catalog.runAs kind code s.solver g
        (lastRegistered? kind calls = none →
          answer.1 = s.solver ∧ answer.2.value = .error (.unregistered kind)) ∧
        ∀ r, lastRegistered? kind calls = some r →
          (∀ failure, (s.solver.solve (r.analysis g) g.toGraph).2.outcome = .error failure →
            answer.1 = ⟨settings, .uninitialized⟩ ∧ answer.2.value = .error (.failed failure)) ∧
          ∀ solution, (s.solver.solve (r.analysis g) g.toGraph).2.outcome = .ok solution →
            answer.1 = ⟨settings, .converged⟩ ∧ answer.2.value =
              if same : r.code = code then .ok (same ▸ solution)
              else .error (.typeMismatch kind) := by
  intro s
  obtain ⟨kept, state, registered⟩ := tracks_after settings calls
  refine ⟨kept, ?_, fun kind code g => ⟨fun none => ?_, fun r found => ?_⟩⟩
  · rw [state]
    match lastRun? settings calls with
    | some true | some false | none => rfl
  · rw [← registered] at none
    rw [Catalog.runAs_of_none none]
    exact ⟨rfl, rfl⟩
  · rw [← registered] at found
    have solver :
        (s.catalog.runAs kind code s.solver g).1 = (s.solver.solve (r.analysis g) g.toGraph).1 :=
      (Catalog.run_of_some found).1
    rw [solver, Solver.fst_solve]
    constructor
    · intro failure hrun
      refine ⟨?_, Catalog.runAs_of_error found hrun⟩
      rw [hrun, kept]
      rfl
    · intro solution hrun
      refine ⟨?_, Catalog.runAs_of_ok found hrun⟩
      rw [hrun, kept]
      rfl

/-- Numbers as facts, with a sign or without. -/
def signedOrNot : Bool → FactType
  | true => ⟨Int⟩
  | false => ⟨Nat⟩

/-- `spinning` with nothing to say at its nodes. -/
def unlabeledSpinning : LabeledGraph Nat Unit := { Analysis.spinning with label := fun _ => .ok () }

theorem answers_of_calls_spinning :
    let run : Call Nat Unit signedOrNot := .run .liveVariables unlabeledSpinning
    let registered := [.register .liveVariables ⟨false, fun _ => Analysis.passedNodes⟩, run]
    let converged := run :: registered
    let nowhere : Task := ⟨Nat, ⟨Nat⟩, Analysis.passedNodes, { Analysis.spinning with nodes := [] }⟩
    let failed := .solve nowhere :: converged
    let answer := fun (calls : List (Call Nat Unit signedOrNot)) code =>
      (after {} calls).catalog.runAs .liveVariables code (after {} calls).solver unlabeledSpinning
    (answer [run] false).2.value = .error (.unregistered .liveVariables) ∧
      (after {} registered).solver.state = .uninitialized ∧
      (after {} converged).solver.state = .converged ∧
      (after {} failed).solver.state = .uninitialized ∧
      ∃ solution, (answer failed false).2.value = .ok solution ∧
        (answer failed true).1 = ⟨{}, .converged⟩ ∧
        (answer failed true).2.value = .error (.typeMismatch .liveVariables) := by
  intro run registered converged nowhere failed answer
  obtain ⟨solution, hs⟩ : ∃ solution,
      (Analysis.passedNodes.solve {} Analysis.spinning).outcome = .ok solution :=
    exists_eq_ok (by decide +kernel)
  obtain ⟨-, -, unanswered⟩ := answers_of_calls {} [run]
  obtain ⟨-, before, -⟩ := answers_of_calls {} registered
  obtain ⟨-, succeeded, -⟩ := answers_of_calls {} converged
  obtain ⟨-, state, answers⟩ := answers_of_calls {} failed
  have found :
      lastRegistered? .liveVariables failed = some ⟨false, fun _ => Analysis.passedNodes⟩ :=
    rfl
  obtain ⟨-, right⟩ := ((answers .liveVariables false unlabeledSpinning).2 _ found).2 solution hs
  obtain ⟨solver, wrong⟩ :=
    ((answers .liveVariables true unlabeledSpinning).2 _ found).2 solution hs
  exact ⟨((unanswered .liveVariables false unlabeledSpinning).1 rfl).2, before,
    succeeded.trans (if_pos (by decide +kernel)), state.trans (if_neg (by decide +kernel)),
    solution, right, solver, wrong⟩

end Session

end FlowFacts

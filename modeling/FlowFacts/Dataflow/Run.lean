import FlowFacts.Dataflow.Journal
import FlowFacts.Dataflow.Numbering
import FlowFacts.Dataflow.Solution
import FlowFacts.Equations.Check
import FlowFacts.Equations.Worklist

/-!
# Runs of an analysis over a graph

`Analysis.solve` computes the facts of every node of a graph, and `Analysis.verify` checks given
facts. Both keep a journal, also when they fail. A `Solver` has settings and remembers whether its
last run reached a solution.
-/

namespace FlowFacts

/-- A run: what happened in it, and how it ended. -/
structure Run (ν F α : Type) where
  journal : List (Entry ν F)
  outcome : Except (Failure ν) α

namespace Equations

variable {n : Nat} {F : Type} [LE F] [DecidableLE F] [DecidableEq F]

/-- Solves the equations as the settings say. -/
def solve (E : Equations n F) (settings : Settings) : Progress n F × Except (Stop n) Tally :=
  match E.order with
  | .error e => (E.start, .error (.gap e))
  | .ok order =>
    match settings.strategy with
    | .roundRobin => E.solveInRounds settings.checkTransfer settings.maxPasses order
    | .worklist => E.solveByWorklist settings.checkTransfer settings.maxPasses order

end Equations

namespace Graph

variable {ν F : Type} (g : Graph ν) (d : Direction)

/-- The journal entry of an event. -/
def entryOf : Event g.size F → Entry ν F
  | .visited v => .visited (g.node v.node) (d.place v.left) v.report
  | .passed number report => .passed number report
  | .enqueued i => .enqueued (g.node i)

/-- The journal entries of all events so far. -/
def entries (p : Progress g.size F) : List (Entry ν F) := p.events.reverse.map (g.entryOf d)

/-- The reason to stop, in terms of the graph. -/
def causeOf : Stop g.size → Cause ν
  | .misstep i .shrank => .notMonotone (g.node i)
  | .misstep i (.misreported reported actual) => .inexactReport (g.node i) reported actual
  | .limitReached limit => .limitReached limit
  | .countExhausted => .countExhausted
  | .unstable i role => .notAFixpoint (g.node i) (d.side role)
  | .gap error => .lookup error

/-- The facts of each node. -/
def factsOf (store : Store g.size F) : List (ν × NodeFacts F) :=
  (List.finRange g.size).map fun i => (g.node i, d.place (store.get i))

end Graph

namespace Analysis

variable {ν F : Type} [DecidableEq ν]

def failure (a : Analysis ν F) (cause : Cause ν) : Failure ν := ⟨a.name, a.direction, cause⟩

variable [LE F] [DecidableLE F] [DecidableEq F]

/-- The facts of every node of the graph. -/
def solve (a : Analysis ν F) (settings : Settings) (g : Graph ν) : Run ν F (Solution ν F) :=
  let running := .running g.size settings.strategy
  match a.equations? g with
  | .error cause => ⟨[running], .error (a.failure cause)⟩
  | .ok E =>
    let (last, outcome) := E.solve settings
    let journal := running :: .seeded g.size (g.node E.boundary) :: g.entries a.direction last
    match outcome with
    | .error stop => ⟨journal, .error (a.failure (g.causeOf a.direction stop))⟩
    | .ok tally =>
      ⟨journal ++ [.converged tally],
        .ok ⟨g.factsOf a.direction last.store, ⟨tally, settings.strategy⟩⟩⟩

/-- The facts that a solution has for the nodes of a graph, by role. -/
def storeOf (a : Analysis ν F) (g : Graph ν) (s : Solution ν F) :
    Except (Cause ν) (Store g.size F) :=
  tabulate g.size fun i =>
    match s.facts? (g.node i) with
    | some facts => .ok (a.direction.orient facts)
    | none => .error (.missingFacts (g.node i))

/-- Whether the facts of a solution stand up to the equations of the analysis over the graph. -/
def verify (a : Analysis ν F) (g : Graph ν) (s : Solution ν F) : Run ν F Unit :=
  match a.equations? g with
  | .error cause => ⟨[], .error (a.failure cause)⟩
  | .ok E =>
    let seeded := .seeded g.size (g.node E.boundary)
    match a.storeOf g s with
    | .error cause => ⟨[seeded], .error (a.failure cause)⟩
    | .ok store =>
      let (last, stop?) := E.check store
      let journal := seeded :: g.entries a.direction last
      match stop? with
      | some stop => ⟨journal, .error (a.failure (g.causeOf a.direction stop))⟩
      | none => ⟨journal, .ok ()⟩

end Analysis

/-- What became of the last run of a solver. There is no state for a run that is under way, with the
number of its pass: a run has the solver to itself, so nobody can ask for its state before the run
returns, and by then `Solver.solve` has put the outcome in its place. -/
inductive Solver.State where
  /-- There was no run, or it failed. -/
  | uninitialized
  /-- It reached a solution. -/
  | converged
deriving DecidableEq, Inhabited

/-- A solver with its settings. -/
structure Solver where
  settings : Settings := {}
  state : Solver.State := .uninitialized
deriving DecidableEq, Inhabited

namespace Solver

variable {ν F : Type} [DecidableEq ν] [LE F] [DecidableLE F] [DecidableEq F]

/-- The state of a solver after a run that ended so. -/
def stateAfter {ε α : Type} : Except ε α → State
  | .ok _ => .converged
  | .error _ => .uninitialized

/-- Runs an analysis over a graph. -/
def solve (s : Solver) (a : Analysis ν F) (g : Graph ν) : Solver × Run ν F (Solution ν F) :=
  let run := a.solve s.settings g
  ({ s with state := stateAfter run.outcome }, run)

end Solver

end FlowFacts

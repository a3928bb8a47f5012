import FlowFacts.Dataflow.Analysis
import FlowFacts.Dataflow.Settings
import FlowFacts.Equations.RoundRobin

/-!
# The journal of a run

An `Entry ν F` is something that happened in a run of a solver: the run began, facts were seeded, a
node was visited, and so on. `Analysis.records` gives the text of an entry, as records for a log.
-/

namespace FlowFacts

/-- How much detail a record goes into. -/
inductive Level where
  | debug
  | trace
deriving DecidableEq

instance : ToString Level where
  toString
    | .debug => "DEBUG"
    | .trace => "TRACE"

/-- A line of a log: its level, the part of the program that it comes from, and its text. -/
structure Record where
  level : Level
  target : String
  message : String
deriving DecidableEq

/-- Something that happened in a run. -/
inductive Entry (ν F : Type) where
  /-- The run began, on a graph of so many nodes. -/
  | running (size : Nat) (strategy : Strategy)
  /-- The nodes got their first facts, the boundary one from outside. -/
  | seeded (size : Nat) (boundary : ν)
  /-- A node was visited, which left these facts. -/
  | visited (node : ν) (facts : NodeFacts F) (report : Change)
  /-- A pass was completed. -/
  | passed (number : Nat) (report : Change)
  /-- A node was put in the queue. -/
  | enqueued (node : ν)
  /-- The run reached a solution. -/
  | converged (tally : Tally)

/-- The records of the solver itself have this target; others have the name of their analysis. -/
def solverTarget : String := "dataflow-solver"

/-- The facts of a node in a sentence. -/
def NodeFacts.describe {F : Type} [Inspect F] (facts : NodeFacts F) : String :=
  toString Side.before ++ " = " ++ inspect facts.before ++ ", "
    ++ toString Side.after ++ " = " ++ inspect facts.after

namespace Analysis

variable {ν F : Type} [Inspect ν] [Inspect F]

/-- The records of an entry. What the analysis has to say about a node comes before the visit. -/
def records (a : Analysis ν F) : Entry ν F → List Record
  | .running size strategy =>
    [⟨.debug, solverTarget, "running " ++ toString a.direction ++ " analysis '" ++ a.name
      ++ "' over " ++ toString size ++ " nodes using " ++ toString strategy ++ " strategy"⟩]
  | .seeded size v =>
    [⟨.debug, a.name, "seeded " ++ toString size ++ " nodes, boundary " ++ inspect v ++ " has "
      ++ toString (a.direction.side .input) ++ " = " ++ inspect a.boundary⟩]
  | .visited v facts report =>
    (a.notes v).map (⟨.trace, a.name, ·⟩) ++
      [⟨.trace, a.name, "visited " ++ inspect v ++ ": " ++ facts.describe ++ " (changed = "
        ++ toString report.isChanged ++ ")"⟩]
  | .passed number report =>
    [⟨.trace, solverTarget, "pass " ++ toString number ++ " of '" ++ a.name
      ++ "' complete (changed = " ++ toString report.isChanged ++ ")"⟩]
  | .enqueued v => [⟨.trace, solverTarget, "enqueuing " ++ inspect v⟩]
  | .converged tally =>
    [⟨.debug, solverTarget, "'" ++ a.name ++ "' converged after " ++ toString tally.passes
      ++ " passes (" ++ toString tally.visits ++ " node visits)"⟩]

end Analysis

end FlowFacts

import FlowFacts.Dataflow.Run
import FlowFacts.FactSet
import FlowFacts.Program.Statement

/-!
# Live variables

A variable is live at a point of a program if some path from there leads to a use of it without
passing a definition of it first. `liveVariables` is the backward analysis: what is live after a
node is live before one of its successors, and what is live before a node is used by it, or is live
after it and not defined by it. `Liveness` is the result for every node of a graph.
-/

namespace FlowFacts

namespace LabeledGraph

variable {ν ℓ V : Type} [DefUse ℓ V] (g : LabeledGraph ν ℓ)

/-- The variables that a node uses. -/
def uses (v : ν) : List V :=
  match g.label v with
  | .ok l => DefUse.uses l
  | .error _ => []

/-- The variable that a node defines. -/
def defined? (v : ν) : Option V :=
  match g.label v with
  | .ok l => DefUse.defined? l
  | .error _ => none

end LabeledGraph

variable {ν ℓ V : Type} [Ord V] [Std.TransOrd V] [Std.LawfulEqOrd V] [Inspect V] [Inspect ν]
  [DefUse ℓ V]

/-- What is live before a node, given what is live after it. -/
def liveBefore (g : LabeledGraph ν ℓ) (v : ν) (after : FactSet V) : FactSet V :=
  (match g.defined? v with
    | some x => after.erase x
    | none => after) ∪ .ofList (g.uses v)

/-- The analysis of live variables over a graph. -/
def liveVariables (g : LabeledGraph ν ℓ) : Analysis ν (FactSet V) where
  name := "liveness"
  direction := .backward
  boundary := ∅
  initial := ∅
  meet fact target := target ∪ fact
  transfer v facts :=
    let (before, report) := FactSet.join facts.before (liveBefore g v facts.after)
    (⟨before, facts.after⟩, report)
  notes v :=
    [inspect v ++ ": uses = " ++ inspect (Std.ExtTreeSet.ofList (g.uses v) : FactSet V)
      ++ ", def = " ++ inspect (g.defined? v)]

/-- The live variables of every node of a graph. -/
structure Liveness (ν V : Type) [Ord V] where
  solution : Solution ν (FactSet V)

namespace Liveness

/-- Computes the live variables of a graph with a given solver. -/
def computeWith [DecidableEq ν] (solver : Solver) (g : LabeledGraph ν ℓ) :
    Solver × Run ν (FactSet V) (Liveness ν V) :=
  let (solver, run) := solver.solve (liveVariables g) g.toGraph
  (solver, ⟨run.journal, run.outcome.map mk⟩)

/-- Computes the live variables of a graph with a solver of its own. -/
def compute [DecidableEq ν] (g : LabeledGraph ν ℓ) : Run ν (FactSet V) (Liveness ν V) :=
  (computeWith {} g).2

variable [DecidableEq ν] (l : Liveness ν V)

/-- The variables live on entry to a node. -/
def liveIn? (v : ν) : Option (FactSet V) := l.solution.before? v

/-- The variables live on exit from a node. -/
def liveOut? (v : ν) : Option (FactSet V) := l.solution.after? v

def isLiveIn (v : ν) (x : V) : Bool := (l.liveIn? v).any (·.contains x)

def isLiveOut (v : ν) (x : V) : Bool := (l.liveOut? v).any (·.contains x)

instance : Inspect (Liveness ν V) where
  inspect l := Text.fields "Liveness" [("result", inspect l.solution)]

end Liveness

end FlowFacts

import FlowFacts.Dataflow.Direction
import FlowFacts.Dataflow.Settings
import FlowFacts.Equations.RoundRobin

/-!
# Solutions

A `Solution ν F` has the facts of each node of a graph, in the order in which the graph lists its
nodes, and says how much work it took to compute them.
-/

namespace FlowFacts

/-- The work that a solution took. -/
structure Stats extends Tally where
  strategy : Strategy
deriving DecidableEq

/-- The facts of every node of a graph. -/
structure Solution (ν F : Type) where
  entries : List (ν × NodeFacts F)
  stats : Stats

namespace Solution

variable {ν F : Type}

def size (s : Solution ν F) : Nat := s.entries.length

def isEmpty (s : Solution ν F) : Bool := s.entries.isEmpty

/-- The facts of a node, if the solution has it. -/
def facts? [DecidableEq ν] (s : Solution ν F) (v : ν) : Option (NodeFacts F) :=
  s.entries.reverse.lookup v

/-- The fact on entry to a node. -/
def before? [DecidableEq ν] (s : Solution ν F) (v : ν) : Option F :=
  (s.facts? v).map NodeFacts.before

/-- The fact on exit from a node. -/
def after? [DecidableEq ν] (s : Solution ν F) (v : ν) : Option F := (s.facts? v).map NodeFacts.after

/-- A line for each node with its two facts. -/
instance [ToString ν] [ToString F] : ToString (Solution ν F) where
  toString s := String.join (s.entries.map fun (v, facts) =>
    toString v ++ ": IN=" ++ toString facts.before ++ " OUT=" ++ toString facts.after ++ "\n")

instance [Inspect ν] [Inspect F] : Inspect (Solution ν F) where
  inspect s := Text.mapOf (s.entries.map fun (v, facts) => (inspect v, inspect facts))

end Solution

end FlowFacts

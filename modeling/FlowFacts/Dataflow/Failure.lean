import FlowFacts.Equations.Basic

/-!
# Failures of an analysis

A `Cause ν` is the reason why an analysis of a graph has no result, or why given facts are refused.
A `Failure ν` says of which analysis, and has the wording: `Failure.message` and `Failure.help?`.
-/

namespace FlowFacts

/-- Why an analysis fails. -/
inductive Cause (ν : Type) where
  /-- The graph has no nodes. -/
  | emptyGraph
  /-- The boundary is not in the graph, or no path leads from the entry to it. -/
  | unreachableBoundary (node : ν)
  /-- Information flows into the boundary from inside the graph. -/
  | boundaryHasFlowEdges (node : ν) (count : Nat)
  /-- The facts kept changing for as many passes as are allowed. -/
  | limitReached (limit : Nat)
  /-- A transfer function took information away. -/
  | notMonotone (node : ν)
  /-- A transfer function misreported what it did. -/
  | inexactReport (node : ν) (reported actual : Change)
  /-- Given facts do not solve the equations. -/
  | notAFixpoint (node : ν) (side : Side)
  /-- There are no given facts for a node. -/
  | missingFacts (node : ν)
  /-- The graph did not answer. -/
  | lookup (error : LookupError)
  /-- There were more visits than can be counted. -/
  | countExhausted
deriving DecidableEq

/-- The failure of an analysis. -/
structure Failure (ν : Type) where
  analysis : String
  direction : Direction
  cause : Cause ν
deriving DecidableEq

/-- A change flag in a sentence. -/
def Change.describe : Change → String
  | changed => "a change"
  | unchanged => "no change"

namespace Failure

variable {ν : Type}

def message [Inspect ν] (f : Failure ν) : String :=
  let name := "'" ++ f.analysis ++ "'"
  match f.cause with
  | .emptyGraph => "cannot run " ++ name ++ " on an empty graph"
  | .unreachableBoundary v =>
    "invalid " ++ toString f.direction ++ " analysis " ++ name ++ ": boundary node " ++ inspect v
      ++ " is not reachable"
  | .boundaryHasFlowEdges v count =>
    "invalid " ++ toString f.direction ++ " analysis " ++ name ++ ": boundary node " ++ inspect v
      ++ " has " ++ toString count ++ " incoming flow edge(s)"
  | .limitReached limit =>
    "analysis " ++ name ++ " did not converge within " ++ toString limit ++ " passes"
  | .notMonotone v =>
    "the transfer function of " ++ name ++ " is not monotone at node " ++ inspect v
  | .inexactReport v reported actual =>
    "the transfer function of " ++ name ++ " reported " ++ reported.describe ++ " at node "
      ++ inspect v ++ ", but the fact was " ++ actual.describe
  | .notAFixpoint v side =>
    "the results of " ++ name ++ " are not a fixpoint: " ++ toString side ++ " fact of node "
      ++ inspect v ++ " changed"
  | .missingFacts v => "the results of " ++ name ++ " have no facts for node " ++ inspect v
  | .lookup error => error.message
  | .countExhausted => "attempt to add with overflow"

/-- Advice on how to mend the failure. -/
def help? (f : Failure ν) : Option String :=
  match f.cause with
  | .emptyGraph => "a graph must contain at least an entry and an exit node"
  | .unreachableBoundary _ =>
    "the exit node of a control-flow graph must be reachable from its entry node"
  | .boundaryHasFlowEdges .. =>
    "a forward analysis requires an entry node without predecessors, and a backward analysis "
      ++ "requires an exit node without successors"
  | .limitReached _ =>
    "this usually indicates a meet or transfer function which is not monotone"
  | .notMonotone _ =>
    "transfer functions must never remove information from the fact they update"
  | .inexactReport .. | .notAFixpoint .. | .missingFacts _ | .lookup _ | .countExhausted => none

end Failure

end FlowFacts

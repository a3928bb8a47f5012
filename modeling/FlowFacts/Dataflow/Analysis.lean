import FlowFacts.Change
import FlowFacts.Dataflow.Direction

/-!
# Analyses

An `Analysis ν F` computes facts of type `F` for the nodes of a graph. It says in which direction
information flows, what comes in at the boundary, what every other fact starts from, how facts from
several nodes meet, and what each node does to its facts.

An analysis that is monotone over facts of finite height always comes to an end. That asks of
`initial` to be the least fact, of `meet` to be commutative, associative and idempotent, and of
`transfer` never to take information from the fact that it computes.
-/

namespace FlowFacts

/-- A dataflow analysis over nodes `ν` with facts `F`. -/
structure Analysis (ν F : Type) where
  name : String
  direction : Direction
  /-- The fact that comes in at the boundary. -/
  boundary : F
  /-- The fact that every other side of a node starts from. -/
  initial : F
  /-- The second fact with the first one met into it. -/
  meet : F → F → F
  /-- The facts of a node after its transfer function, and whether the computed side changed. -/
  transfer : ν → NodeFacts F → NodeFacts F × Change
  /-- What the analysis has to say in the journal about a node, each time it comes to it. -/
  notes : ν → List String := fun _ => []

end FlowFacts

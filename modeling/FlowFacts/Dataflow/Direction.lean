import FlowFacts.Graph.Basic
import FlowFacts.Text.Structural

/-!
# Directions and the two sides of a node

Every node has a fact before it and a fact after it (`NodeFacts`). In which of the two an analysis
collects what flows in, and in which it stores what it computes, depends on its direction: `Sides`
are the same two facts by role. `Direction.orient` and `Direction.place` go back and forth, and
`Direction.flow` is the graph whose edges point the way information flows.
-/

namespace FlowFacts

/-- Where a fact holds: on entry to a node, or on exit from it. -/
inductive Side where
  | before
  | after
deriving DecidableEq

instance : ToString Side where
  toString
    | .before => "IN"
    | .after => "OUT"

/-- The facts on entry to a node and on exit from it. -/
structure NodeFacts (F : Type) where
  before : F
  after : F
deriving DecidableEq

namespace NodeFacts

variable {F : Type}

def get (facts : NodeFacts F) : Side → F
  | .before => facts.before
  | .after => facts.after

def set (facts : NodeFacts F) (side : Side) (fact : F) : NodeFacts F :=
  match side with
  | .before => { facts with before := fact }
  | .after => { facts with after := fact }

/-- The facts with the two sides exchanged. -/
def swap (facts : NodeFacts F) : NodeFacts F := ⟨facts.after, facts.before⟩

instance [Inspect F] : Inspect (NodeFacts F) where
  inspect facts :=
    Text.fields "NodeFacts" [("in_fact", inspect facts.before), ("out_fact", inspect facts.after)]

end NodeFacts

/-- What a fact of a node is for. -/
inductive Role where
  /-- Collected from the nodes that information comes from. -/
  | input
  /-- Computed by the transfer function. -/
  | output
deriving DecidableEq

/-- The two facts of a node by role. -/
@[ext]
structure Sides (F : Type) where
  input : F
  output : F
deriving DecidableEq

/-- Whether information flows with control or against it. -/
inductive Direction where
  | forward
  | backward
deriving DecidableEq

namespace Direction

variable {ν F : Type}

instance : ToString Direction where
  toString
    | forward => "forward"
    | backward => "backward"

def isForward (d : Direction) : Bool := decide (d = forward)

def isBackward (d : Direction) : Bool := !d.isForward

def opposite : Direction → Direction
  | forward => backward
  | backward => forward

/-- Where the fact of a role holds. -/
def side : Direction → Role → Side
  | forward, .input | backward, .output => .before
  | forward, .output | backward, .input => .after

/-- The graph with its edges pointing the way information flows. Its entry is the boundary, where
information comes from outside. -/
def flow : Direction → Graph ν → Graph ν
  | forward, g => g
  | backward, g => g.inverse

/-- The facts of a node by role. -/
def orient (d : Direction) (facts : NodeFacts F) : Sides F where
  input := facts.get (d.side .input)
  output := facts.get (d.side .output)

/-- The facts of a node by where they hold. -/
def place (d : Direction) (sides : Sides F) : NodeFacts F :=
  match d with
  | forward => ⟨sides.input, sides.output⟩
  | backward => ⟨sides.output, sides.input⟩

@[simp] theorem orient_place (d : Direction) (sides : Sides F) :
    d.orient (d.place sides) = sides := by
  cases d <;> rfl

@[simp] theorem place_orient (d : Direction) (facts : NodeFacts F) :
    d.place (d.orient facts) = facts := by
  cases d <;> rfl

end Direction

end FlowFacts

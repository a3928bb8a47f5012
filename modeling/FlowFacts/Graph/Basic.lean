/-!
# Graphs of control flow

A `Graph ν` lists its nodes and answers questions about them: its entry and exit, and the children
and parents of a node. An answer can be missing, and then it is a `LookupError`. Parallel edges are
allowed, and so are edges from a node to itself, and edges at nodes that the graph does not list.

`Graph.inverse` is the same graph with every edge turned round. A `LabeledGraph` also has a label at
each node.
-/

namespace FlowFacts

/-- Why a question about a graph has no answer. -/
inductive LookupError where
  /-- A graph without nodes has no entry. -/
  | noEntry
  /-- A graph without nodes has no exit. -/
  | noExit
  /-- There is no node of this index among so many. -/
  | noNode (index size : Nat)
  /-- The node is not among those that the graph lists. -/
  | unlisted
deriving DecidableEq

def LookupError.message : LookupError → String
  | noEntry => "cannot get the entry of an empty graph"
  | noExit => "cannot get the exit of an empty graph"
  | noNode index size =>
    "index out of bounds: the len is " ++ toString size ++ " but the index is " ++ toString index
  | unlisted => "no entry found for key"

/-- A directed graph with a designated entry and exit. The nodes come in a fixed order. -/
structure Graph (ν : Type) where
  nodes : List ν
  entry : Except LookupError ν
  exit : Except LookupError ν
  children : ν → Except LookupError (List ν)
  parents : ν → Except LookupError (List ν)
  /-- The nodes at edges that are not listed. A traversal may pass through them. -/
  outlying : List ν := []

namespace Graph

variable {ν : Type}

def size (g : Graph ν) : Nat := g.nodes.length

def isEmpty (g : Graph ν) : Bool := g.nodes.isEmpty

def contains [DecidableEq ν] (g : Graph ν) (v : ν) : Bool := decide (v ∈ g.nodes)

/-- The graph with every edge turned round, and with entry and exit exchanged. -/
def inverse (g : Graph ν) : Graph ν where
  nodes := g.nodes
  entry := g.exit
  exit := g.entry
  children := g.parents
  parents := g.children
  outlying := g.outlying

@[simp] theorem inverse_inverse (g : Graph ν) : g.inverse.inverse = g := rfl

end Graph

/-- A graph with a label at each node. -/
structure LabeledGraph (ν ℓ : Type) extends Graph ν where
  label : ν → Except LookupError ℓ

end FlowFacts

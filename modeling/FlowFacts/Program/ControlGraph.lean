import FlowFacts.Graph.DepthFirst
import FlowFacts.Program.Statement

/-!
# Control-flow graphs of statements

A `ControlGraph σ` is a growing graph whose nodes, numbered in the order of their creation, hold one
statement each. An edge is kept once, in the lists of both of its ends, in the order in which edges
were accepted. The entry is the first node and the exit the last, unless they have been designated.
-/

namespace FlowFacts

/-- A node of a control-flow graph. -/
structure NodeId where
  index : Nat
deriving DecidableEq

namespace NodeId

/-- Nodes are ordered by number. -/
instance : Ord NodeId := ⟨compareOn index⟩

instance : Std.TransOrd NodeId := inferInstanceAs (Std.TransCmp (compareOn index))

instance : Std.LawfulEqOrd NodeId where
  eq_of_compare {v w} h := by
    cases v
    cases w
    exact congrArg mk (Std.LawfulEqOrd.eq_of_compare h)

instance : ToString NodeId := ⟨fun v => "n" ++ toString v.index⟩

instance : Inspect NodeId := ⟨toString⟩

end NodeId

/-- A statement and the edges at it. -/
structure Block (σ : Type) where
  statement : σ
  successors : List NodeId
  predecessors : List NodeId

/-- A control-flow graph whose nodes hold statements of type `σ`. -/
structure ControlGraph (σ : Type) where
  blocks : Array (Block σ)
  /-- The designated entry. -/
  entry? : Option NodeId
  /-- The designated exit. -/
  exit? : Option NodeId

namespace ControlGraph

variable {σ : Type}

/-- The graph without nodes. -/
def empty : ControlGraph σ := ⟨#[], none, none⟩

instance : EmptyCollection (ControlGraph σ) := ⟨empty⟩

def size (g : ControlGraph σ) : Nat := g.blocks.size

/-- All nodes, by number. -/
def nodes (g : ControlGraph σ) : List NodeId := (List.range g.size).map NodeId.mk

def contains (g : ControlGraph σ) (v : NodeId) : Bool := decide (v.index < g.size)

theorem mem_nodes {g : ControlGraph σ} {v : NodeId} : v ∈ g.nodes ↔ v.index < g.size := by
  cases v
  simp [nodes]

/-! ## Looking up -/

def block (g : ControlGraph σ) (v : NodeId) : Except LookupError (Block σ) :=
  match g.blocks[v.index]? with
  | some b => .ok b
  | none => .error (.noNode v.index g.size)

def statement (g : ControlGraph σ) (v : NodeId) : Except LookupError σ :=
  (g.block v).map Block.statement

def successors (g : ControlGraph σ) (v : NodeId) : Except LookupError (List NodeId) :=
  (g.block v).map Block.successors

def predecessors (g : ControlGraph σ) (v : NodeId) : Except LookupError (List NodeId) :=
  (g.block v).map Block.predecessors

/-- The designated entry, or else the first node. -/
def entry (g : ControlGraph σ) : Except LookupError NodeId :=
  match g.entry?.or g.nodes.head? with
  | some v => .ok v
  | none => .error .noEntry

/-- The designated exit, or else the last node. -/
def exit (g : ControlGraph σ) : Except LookupError NodeId :=
  match g.exit?.or g.nodes.getLast? with
  | some v => .ok v
  | none => .error .noExit

/-- The graph as a graph of control flow, each node labeled with its statement. -/
def toLabeledGraph (g : ControlGraph σ) : LabeledGraph NodeId σ where
  nodes := g.nodes
  entry := g.entry
  exit := g.exit
  children := g.successors
  parents := g.predecessors
  label := g.statement

/-- The graph as a graph of control flow. -/
abbrev toGraph (g : ControlGraph σ) : Graph NodeId := g.toLabeledGraph.toGraph

/-! ## Growing -/

/-- The graph with one more node, which has no edges, and that node. -/
def push (g : ControlGraph σ) (s : σ) : ControlGraph σ × NodeId :=
  (⟨g.blocks.push ⟨s, [], []⟩, g.entry?, g.exit?⟩, ⟨g.size⟩)

/-- Whether the edge from `a` to `b` would be new, and both of its ends exist. -/
def accepts (g : ControlGraph σ) (a b : NodeId) : Bool :=
  match g.block a with
  | .ok source => g.contains b && !decide (b ∈ source.successors)
  | .error _ => false

/-- The graph with `b` as one more successor of `a`, and `a` as one more predecessor of `b`. -/
def link (g : ControlGraph σ) (a b : NodeId) : ControlGraph σ where
  blocks := (g.blocks.modify a.index fun block =>
      { block with successors := block.successors ++ [b] }).modify b.index fun block =>
      { block with predecessors := block.predecessors ++ [a] }
  entry? := g.entry?
  exit? := g.exit?

/-- The graph with an edge from `a` to `b`, and whether it was accepted. An edge is accepted once,
and only between nodes of the graph. -/
def connect (g : ControlGraph σ) (a b : NodeId) : ControlGraph σ × Bool :=
  if g.accepts a b then (g.link a b, true) else (g, false)

/-- The graph with an edge from each node of the list to the one after it. -/
def connectChain (g : ControlGraph σ) : List NodeId → ControlGraph σ
  | a :: b :: rest => connectChain (g.connect a b).1 (b :: rest)
  | [_] | [] => g

/-- The graph with `v` as its entry, and whether the graph has that node. -/
def setEntry (g : ControlGraph σ) (v : NodeId) : ControlGraph σ × Bool :=
  if g.contains v then ({ g with entry? := some v }, true) else (g, false)

/-- The graph with `v` as its exit, and whether the graph has that node. -/
def setExit (g : ControlGraph σ) (v : NodeId) : ControlGraph σ × Bool :=
  if g.contains v then ({ g with exit? := some v }, true) else (g, false)

@[simp] theorem size_push (g : ControlGraph σ) (s : σ) : (g.push s).1.size = g.size + 1 := by
  simp [push, size]

@[simp] theorem size_link (g : ControlGraph σ) (a b : NodeId) : (g.link a b).size = g.size := by
  simp [link, size]

@[simp] theorem size_connect (g : ControlGraph σ) (a b : NodeId) :
    (g.connect a b).1.size = g.size := by
  unfold connect
  split <;> simp

/-! ## Text -/

/-- The line of one node: its statement, its roles, and where control goes from it. -/
def line [ToString σ] (g : ControlGraph σ) (v : NodeId) (b : Block σ) : String :=
  toString v ++ ": " ++ toString b.statement
    ++ (if g.entry.toOption = some v then " (entry)" else "")
    ++ (if g.exit.toOption = some v then " (exit)" else "")
    ++ (if b.successors.isEmpty then ""
        else " -> " ++ " ".intercalate (b.successors.map toString))
    ++ "\n"

instance [ToString σ] : ToString (ControlGraph σ) where
  toString g := String.join ((g.nodes.zip g.blocks.toList).map fun (v, b) => g.line v b)

instance [Inspect σ] : Inspect (ControlGraph σ) where
  inspect g := Text.mapOf ((g.nodes.zip g.blocks.toList).map fun (v, b) =>
    (inspect v, inspect (b.statement, b.successors)))

end ControlGraph

end FlowFacts

import FlowFacts.Graph.Basic

/-!
# Depth-first traversal

`DepthFirst ν` is the state of a depth-first traversal with an explicit stack, and `DepthFirst.step`
is one move of it. A node is emitted when all its children have been dealt with, so nodes come out
in post-order, the root last. On graphs:

* `Graph.postorder` and `Graph.reversePostorder` list the nodes that can be reached from a root;
* `Graph.firstInPostorder` asks the traversal for its next node a number of times;
* `Graph.reaches` decides whether one node can be reached from another.
-/

namespace FlowFacts

/-- A node on the stack of a traversal. -/
structure Frame (ν : Type) where
  node : ν
  /-- The children that remain to be dealt with. -/
  pending : List ν
  /-- Whether the node has been marked as visited. -/
  reached : Bool

/-- The state of a depth-first traversal: the nodes marked as visited, and the stack, top first. -/
structure DepthFirst (ν : Type) where
  visited : List ν
  stack : List (Frame ν)

namespace DepthFirst

variable {ν : Type} (children : ν → Except LookupError (List ν))

/-- What one move of a traversal comes to. -/
inductive Step (ν : Type) where
  /-- The stack is empty. -/
  | finished
  /-- The node on top is complete and has left the stack. -/
  | emitted (node : ν) (rest : DepthFirst ν)
  /-- The state has moved on, and no node is complete yet. -/
  | moved (rest : DepthFirst ν)

/-- The stack entry of a node that has just been found. -/
def discover (v : ν) : Except LookupError (Frame ν) :=
  (children v).map fun pending => ⟨v, pending, false⟩

/-- A traversal that has found its root and nothing else. -/
def start (root : ν) : Except LookupError (DepthFirst ν) :=
  (discover children root).map fun frame => ⟨[], [frame]⟩

/-- One move. The node on top is marked first; then each child that is not yet marked goes on the
stack in turn; a node without further children is emitted. -/
def step [DecidableEq ν] : DepthFirst ν → Except LookupError (Step ν)
  | ⟨_, []⟩ => .ok .finished
  | ⟨visited, ⟨v, pending, false⟩ :: below⟩ =>
    if v ∈ visited then .ok (.moved ⟨visited, below⟩)
    else .ok (.moved ⟨v :: visited, ⟨v, pending, true⟩ :: below⟩)
  | ⟨visited, ⟨v, [], true⟩ :: below⟩ => .ok (.emitted v ⟨visited, below⟩)
  | ⟨visited, ⟨v, child :: pending, true⟩ :: below⟩ =>
    if child ∈ visited then .ok (.moved ⟨visited, ⟨v, pending, true⟩ :: below⟩)
    else (discover children child).map fun frame =>
      .moved ⟨visited, frame :: ⟨v, pending, true⟩ :: below⟩

/-- The next node in post-order, or `none` once the traversal is complete, found within a number of
moves. -/
def next [DecidableEq ν] : Nat → DepthFirst ν → Except LookupError (Option ν × DepthFirst ν)
  | 0, _ => .error .unlisted
  | budget + 1, t =>
    match step children t with
    | .error e => .error e
    | .ok .finished => .ok (none, t)
    | .ok (.emitted v rest) => .ok (some v, rest)
    | .ok (.moved rest) => next budget rest

/-- The answers to so many requests for the next node, each found within `budget` moves. -/
def nexts [DecidableEq ν] (budget : Nat) : Nat → DepthFirst ν → Except LookupError (List (Option ν))
  | 0, _ => .ok []
  | count + 1, t =>
    match next children budget t with
    | .error e => .error e
    | .ok (answer, rest) => (nexts budget count rest).map (answer :: ·)

/-- All nodes that are still to come, found within a number of moves. -/
def remaining [DecidableEq ν] : Nat → DepthFirst ν → Except LookupError (List ν)
  | 0, _ => .error .unlisted
  | budget + 1, t =>
    match step children t with
    | .error e => .error e
    | .ok .finished => .ok []
    | .ok (.emitted v rest) => (remaining budget rest).map (v :: ·)
    | .ok (.moved rest) => remaining budget rest

/-- Whether a node is still to come, found within a number of moves. The traversal stops where it
comes. -/
def comesTo [DecidableEq ν] (target : ν) : Nat → DepthFirst ν → Except LookupError Bool
  | 0, _ => .error .unlisted
  | budget + 1, t =>
    match step children t with
    | .error e => .error e
    | .ok .finished => .ok false
    | .ok (.emitted v rest) => if v = target then .ok true else comesTo target budget rest
    | .ok (.moved rest) => comesTo target budget rest

end DepthFirst

namespace Graph

variable {ν : Type}

/-- The number of children of a node. -/
def degree (g : Graph ν) (v : ν) : Nat :=
  match g.children v with
  | .ok vs => vs.length
  | .error _ => 0

/-- A bound on the moves of a traversal of the graph: each node is marked once and emitted once, and
each of its edges is looked at once. -/
def traversalBound (g : Graph ν) (root : ν) : Nat :=
  (root :: (g.nodes ++ g.outlying)).foldr (fun v bound => g.degree v + 2 + bound) 1

variable [DecidableEq ν]

/-- The nodes that can be reached from `root`, each after the nodes found by way of it. -/
def postorder (g : Graph ν) (root : ν) : Except LookupError (List ν) :=
  (DepthFirst.start g.children root).bind (DepthFirst.remaining g.children (g.traversalBound root))

/-- The nodes that can be reached from `root`, each before its children except along back edges. -/
def reversePostorder (g : Graph ν) (root : ν) : Except LookupError (List ν) :=
  (g.postorder root).map List.reverse

/-- The first `count` answers of the traversal from `root`: its nodes in post-order, and `none`
after the last of them. -/
def firstInPostorder (g : Graph ν) (root : ν) (count : Nat) :
    Except LookupError (List (Option ν)) :=
  (DepthFirst.start g.children root).bind
    (DepthFirst.nexts g.children (g.traversalBound root) count)

/-- Whether `target` can be reached from `root`. A node can be reached from itself, also when the
graph does not have it. -/
def reaches (g : Graph ν) (root target : ν) : Except LookupError Bool :=
  if root = target then .ok true
  else (DepthFirst.start g.children root).bind
    (DepthFirst.comesTo g.children target (g.traversalBound root))

end Graph

end FlowFacts

import FlowFacts.Change
import FlowFacts.Dataflow.Direction

/-!
# Dataflow equations

`Equations n F` are the equations of an analysis over `n` numbered nodes: the input of the boundary
is given, the input of any other node is the meet over the outputs of its sources, and the output of
a node is what its transfer function makes of its two facts. A `Store` holds the facts of all nodes.

`Equations.visit` recomputes one node. `Visit.misstep?` says whether the transfer function kept its
contract there: its output must not shrink, and its report of a change must be exact.

What the equations are built from may leave gaps: the sources or dependents of a node, or the order
of visits, can be a `LookupError`. Work on the equations stops at a gap when it gets there.
-/

namespace FlowFacts

theorem get_set {α : Type} {n : Nat} (xs : Vector α n) (i j : Fin n) (x : α) :
    (xs.set i.val x i.isLt).get j = if i = j then x else xs.get j := by
  split
  next same => exact same ▸ Vector.getElem_set_self i.isLt
  next other => exact Vector.getElem_set_ne i.isLt j.isLt (other ∘ Fin.ext)

/-- The facts of all nodes, by number. -/
abbrev Store (n : Nat) (F : Type) := Vector (Sides F) n

/-- The store with other facts for one node. -/
def Store.put {n : Nat} {F : Type} (store : Store n F) (i : Fin n) (facts : Sides F) : Store n F :=
  store.set i.val facts i.isLt

theorem Store.get_put {n : Nat} {F : Type} (store : Store n F) (i j : Fin n) (facts : Sides F) :
    (store.put i facts).get j = if i = j then facts else store.get j := get_set store i j facts

/-- The equations of an analysis over numbered nodes. -/
structure Equations (n : Nat) (F : Type) where
  /-- The node where information comes in from outside. -/
  boundary : Fin n
  /-- The fact that comes in there. -/
  boundaryFact : F
  /-- The fact that a node starts from. -/
  initial : F
  /-- The second fact with the first one met into it. -/
  meet : F → F → F
  /-- The facts of a node after its transfer function, and the function's report of a change. -/
  transfer : Fin n → Sides F → Sides F × Change
  /-- The nodes whose outputs meet in the input of a node. -/
  sources : Fin n → Except LookupError (List (Fin n))
  /-- The nodes whose inputs a node's output meets in. -/
  dependents : Fin n → Except LookupError (List (Fin n))
  /-- The order in which the nodes are visited. -/
  order : Except LookupError (List (Fin n))

/-- One application of a transfer function: the facts of the node with its input collected, the
facts that resulted, and the report. -/
structure Visit (n : Nat) (F : Type) where
  node : Fin n
  found : Sides F
  left : Sides F
  report : Change

/-- How a transfer function can break its contract. -/
inductive Misstep where
  /-- The output lost information. -/
  | shrank
  /-- The report is not what happened to the output. -/
  | misreported (reported actual : Change)
deriving DecidableEq

namespace Visit

variable {n : Nat} {F : Type}

/-- What happened to the output. -/
def actual [DecidableEq F] (v : Visit n F) : Change := .ofBool (v.found.output ≠ v.left.output)

/-- The breach of contract at a visit. An output that shrank goes before a report that is not
exact. -/
def misstep? [LE F] [DecidableLE F] [DecidableEq F] (v : Visit n F) : Option Misstep :=
  if ¬ v.found.output ≤ v.left.output then some .shrank
  else if v.actual ≠ v.report then some (.misreported v.report v.actual)
  else none

end Visit

/-- What happens while equations are solved. -/
inductive Event (n : Nat) (F : Type) where
  | visited (visit : Visit n F)
  /-- A pass over all nodes is complete. -/
  | passed (number : Nat) (report : Change)
  /-- A node waits for another visit. -/
  | enqueued (node : Fin n)

/-- The facts so far, and what has happened, the latest first. -/
structure Progress (n : Nat) (F : Type) where
  store : Store n F
  events : List (Event n F)

def Progress.record {n : Nat} {F : Type} (p : Progress n F) (e : Event n F) : Progress n F :=
  { p with events := e :: p.events }

/-- Why work on equations ends without a result. -/
inductive Stop (n : Nat) where
  /-- A transfer function broke its contract. -/
  | misstep (node : Fin n) (what : Misstep)
  /-- The limit on passes was reached first. -/
  | limitReached (limit : Nat)
  /-- A count went beyond the largest number that it can hold. -/
  | countExhausted
  /-- A fact is not what the equations make of the others. -/
  | unstable (node : Fin n) (role : Role)
  /-- There is a gap in the equations. -/
  | gap (error : LookupError)
deriving DecidableEq

namespace Equations

variable {n : Nat} {F : Type} (E : Equations n F)

/-- Every fact initial, save what comes in at the boundary. -/
def seed : Store n F :=
  Store.put (.replicate n ⟨E.initial, E.initial⟩) E.boundary ⟨E.boundaryFact, E.initial⟩

/-- The progress before the first visit. -/
def start : Progress n F := ⟨E.seed, []⟩

/-- The meet over the outputs of some nodes. -/
def meetOver (store : Store n F) (sources : List (Fin n)) : F :=
  sources.foldl (fun target source => E.meet (store.get source).output target) E.initial

/-- The input that a node gets from its sources; the boundary keeps the input it has. -/
def gather (store : Store n F) (i : Fin n) : Except LookupError F :=
  if i = E.boundary then .ok (store.get i).input
  else (E.sources i).map (E.meetOver store)

/-- The visit of a node that has collected an input: its transfer function is applied. -/
def visitWith (store : Store n F) (i : Fin n) (input : F) : Visit n F :=
  let found := { store.get i with input }
  let result := E.transfer i found
  ⟨i, found, result.1, result.2⟩

/-- The visit of a node: its input is collected, and then its transfer function is applied. -/
def visit (store : Store n F) (i : Fin n) : Except LookupError (Visit n F) :=
  (E.gather store i).map (E.visitWith store i)

variable [LE F] [DecidableLE F] [DecidableEq F]

/-- The progress after a visit, and the visit itself. If the transfer function is to be checked and
broke its contract, there is a reason to stop instead. -/
def advance (check : Bool) (p : Progress n F) (i : Fin n) :
    Progress n F × Except (Stop n) (Visit n F) :=
  match E.visit p.store i with
  | .error e => (p, .error (.gap e))
  | .ok v =>
    (⟨p.store.put i v.left, .visited v :: p.events⟩,
      match if check then v.misstep? else none with
      | some what => .error (.misstep i what)
      | none => .ok v)

end Equations

end FlowFacts

import FlowFacts.Equations.RoundRobin

/-!
# Solving with a worklist

All nodes are visited once, in order; after that a node is visited again only when it waits in the
queue, and it is put there when a node that it depends on reports a change. A node waits at most
once. The limit on passes bounds the number of visits, each pass being worth as many visits as there
are nodes.
-/

namespace FlowFacts

/-- The state between two visits. -/
structure Worklist (n : Nat) (F : Type) where
  progress : Progress n F
  /-- The nodes that wait for a visit, the next one first. -/
  queue : List (Fin n)
  /-- Which nodes wait. -/
  queued : Vector Bool n
  visits : Nat

namespace Worklist

variable {n : Nat} {F : Type}

/-- Lets a node wait, unless it waits already. -/
def enqueue (w : Worklist n F) (i : Fin n) : Worklist n F :=
  if w.queued.get i then w
  else { w with
    progress := w.progress.record (.enqueued i)
    queue := w.queue ++ [i]
    queued := w.queued.set i.val true i.isLt }

/-- The number of passes that so many visits are worth, rounded up. -/
def passes (w : Worklist n F) : Nat := (w.visits + (n - 1)) / n

end Worklist

namespace Equations

variable {n : Nat} {F : Type} [LE F] [DecidableLE F] [DecidableEq F] (E : Equations n F)

/-- Visits the node at the head of the queue, and lets its dependents wait if it reports a
change. -/
def visitNext (check : Bool) (w : Worklist n F) : Worklist n F × Option (Stop n) :=
  match w.queue with
  | [] => (w, none)
  | i :: rest =>
    let queued := w.queued.set i.val false i.isLt
    match E.advance check w.progress i with
    | (next, .error stop) => (⟨next, rest, queued, w.visits + 1⟩, some stop)
    | (next, .ok v) =>
      let after : Worklist n F := ⟨next, rest, queued, w.visits + 1⟩
      if v.report.isChanged then
        match E.dependents i with
        | .ok dependents => (dependents.foldl Worklist.enqueue after, none)
        | .error e => (after, some (.gap e))
      else (after, none)

/-- Visits until no node waits. -/
def visitLoop (check : Bool) : Loop (Worklist n F) (Stop n) Tally where
  result? w := if w.queue.isEmpty then some ⟨w.passes, w.visits⟩ else none
  step := E.visitNext check

/-- The state before the first visit: the nodes wait in order. -/
def firstVisit (order : List (Fin n)) : Worklist n F where
  progress := E.start
  queue := order
  queued := order.foldl (fun queued i => queued.set i.val true i.isLt) (.replicate n false)
  visits := 0

/-- Solves the equations with a worklist. -/
def solveByWorklist (check : Bool) (limit? : Option Nat) (order : List (Fin n)) :
    Progress n F × Except (Stop n) Tally :=
  let (last, outcome) :=
    match limit? with
    | some limit =>
      (E.visitLoop check).run (.limitReached limit) (min (limit * n) maxCount) (E.firstVisit order)
    | none => (E.visitLoop check).run .countExhausted maxCount (E.firstVisit order)
  (last.progress, outcome)

end Equations

end FlowFacts

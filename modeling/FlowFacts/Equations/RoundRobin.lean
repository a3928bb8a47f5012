import FlowFacts.Equations.Basic
import FlowFacts.Equations.Loop

/-!
# Solving in rounds

Every node is visited on each pass, in order, until a pass reports no change. The limit on passes is
tested before each pass, so the last one, which confirms the result, counts as well.
-/

namespace FlowFacts

/-- The number of passes and of visits that a result took. -/
structure Tally where
  passes : Nat
  visits : Nat
deriving DecidableEq

/-- The state between two passes. -/
structure Rounds (n : Nat) (F : Type) where
  progress : Progress n F
  tally : Tally
  /-- Whether the last pass reported no change. -/
  settled : Bool

namespace Equations

variable {n : Nat} {F : Type} [LE F] [DecidableLE F] [DecidableEq F] (E : Equations n F)

/-- Visits the nodes of a list one after the other and joins their reports. -/
def sweep (check : Bool) : List (Fin n) → Progress n F → Change →
    Progress n F × Except (Stop n) Change
  | [], p, report => (p, .ok report)
  | i :: rest, p, report =>
    match E.advance check p i with
    | (next, .error stop) => (next, .error stop)
    | (next, .ok v) => sweep check rest next (report ||| v.report)

/-- One pass over the nodes, in order. -/
def pass (check : Bool) (order : List (Fin n)) (s : Rounds n F) : Rounds n F × Option (Stop n) :=
  match E.sweep check order s.progress .unchanged with
  | (p, .error stop) => ({ s with progress := p }, some stop)
  | (p, .ok report) =>
    let tally := ⟨s.tally.passes + 1, s.tally.visits + order.length⟩
    (⟨p.record (.passed tally.passes report), tally, report.isUnchanged⟩, none)

/-- Passes until one reports no change. -/
def roundLoop (check : Bool) (order : List (Fin n)) : Loop (Rounds n F) (Stop n) Tally where
  result? s := if s.settled then some s.tally else none
  step := E.pass check order

/-- The state before the first pass. -/
def firstRound : Rounds n F := ⟨E.start, ⟨0, 0⟩, false⟩

/-- The number of passes that can be counted visit by visit. -/
def countablePasses (n : Nat) : Nat := maxCount / n

/-- Solves the equations in rounds. -/
def solveInRounds (check : Bool) (limit? : Option Nat) (order : List (Fin n)) :
    Progress n F × Except (Stop n) Tally :=
  let loop := E.roundLoop check order
  let (last, outcome) :=
    match limit? with
    | some limit =>
      if limit ≤ countablePasses n then loop.run (.limitReached limit) limit E.firstRound
      else loop.run .countExhausted (countablePasses n) E.firstRound
    | none => loop.run .countExhausted (countablePasses n) E.firstRound
  (last.progress, outcome)

end Equations

end FlowFacts

/-!
# Loops within a budget

A `Loop` has states that either carry a result or take a step, and a step may stop the loop with a
cause. `Loop.run` takes steps until there is a result, a cause to stop, or no budget left. A result
that is already there is given also when no budget is left.
-/

namespace FlowFacts

/-- A loop on states `σ`, with results `α` and causes to stop `ε`. -/
structure Loop (σ ε α : Type) where
  /-- The result, once the state has one. -/
  result? : σ → Option α
  /-- The next state, and the cause to stop there, if any. -/
  step : σ → σ × Option ε

namespace Loop

variable {σ ε α : Type}

/-- The state in which the loop ends, and how it ends, within a number of steps. A loop that needs
more ends with `exhausted`. -/
def run (L : Loop σ ε α) (exhausted : ε) : Nat → σ → σ × Except ε α
  | 0, s =>
    match L.result? s with
    | some a => (s, .ok a)
    | none => (s, .error exhausted)
  | budget + 1, s =>
    match L.result? s with
    | some a => (s, .ok a)
    | none =>
      match L.step s with
      | (next, some cause) => (next, .error cause)
      | (next, none) => run L exhausted budget next

end Loop

/-- The largest number that a count of passes or visits can hold. -/
def maxCount : Nat := UInt64.size - 1

end FlowFacts

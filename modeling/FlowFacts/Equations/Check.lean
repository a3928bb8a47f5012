import FlowFacts.Equations.Basic

/-!
# Checking facts against the equations

`Equations.check` decides whether given facts stand up to one more visit of every node: each output
is recomputed from the initial fact, and neither side of the node may come out different.
-/

namespace FlowFacts.Equations

variable {n : Nat} {F : Type} [LE F] [DecidableLE F] [DecidableEq F] (E : Equations n F)

/-- The role of the first fact that differs. -/
def difference? (expected found : Sides F) : Option Role :=
  if found.input ≠ expected.input then some .input
  else if found.output ≠ expected.output then some .output
  else none

/-- Recomputes the nodes of a list one after the other, up to the first that does not keep its
facts. -/
def recompute : List (Fin n) → Progress n F → Progress n F × Option (Stop n)
  | [], p => (p, none)
  | i :: rest, p =>
    let expected := p.store.get i
    let cleared := p.store.put i { expected with output := E.initial }
    match E.advance true { p with store := cleared } i with
    | (next, .error stop) => (next, some stop)
    | (next, .ok v) =>
      match difference? expected v.left with
      | some role => (next, some (.unstable i role))
      | none => recompute rest next

/-- Whether facts solve the equations: the reason why not, if there is one. -/
def check (store : Store n F) : Progress n F × Option (Stop n) :=
  if (store.get E.boundary).input ≠ E.boundaryFact then
    (⟨store, []⟩, some (.unstable E.boundary .input))
  else
    match E.order with
    | .error e => (⟨store, []⟩, some (.gap e))
    | .ok order => E.recompute order ⟨store, []⟩

end FlowFacts.Equations

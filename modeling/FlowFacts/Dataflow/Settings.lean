/-!
# Settings of a solver

How a solver schedules its visits, when it gives up, and whether it checks the transfer functions.
-/

namespace FlowFacts

/-- The schedule by which nodes are visited. -/
inductive Strategy where
  /-- Every node on each pass, until a pass changes nothing. -/
  | roundRobin
  /-- Only the nodes whose inputs may have changed. -/
  | worklist
deriving DecidableEq, Inhabited

instance : ToString Strategy where
  toString
    | .roundRobin => "round-robin"
    | .worklist => "worklist"

/-- The settings of a solver. -/
structure Settings where
  strategy : Strategy := .roundRobin
  /-- The number of passes after which to give up, if any. -/
  maxPasses : Option Nat := some 10000
  /-- Whether each application of a transfer function is checked. -/
  checkTransfer : Bool := true
deriving DecidableEq, Inhabited

end FlowFacts

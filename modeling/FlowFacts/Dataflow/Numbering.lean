import FlowFacts.Dataflow.Analysis
import FlowFacts.Dataflow.Failure
import FlowFacts.Graph.DepthFirst

/-!
# From a graph to equations

The nodes of a graph are numbered in the order in which the graph lists them. `Analysis.equations?`
turns an analysis and a graph into equations over those numbers, once it has made sure that the
graph suits the analysis: the graph has nodes, its boundary can be reached from its entry, and no
information flows into the boundary. Where an edge leads to a node without a number, the equations
have a gap.
-/

namespace FlowFacts

/-- The results of a function at all numbers below `n`, or its first error. -/
def tabulate {ε α : Type} : (n : Nat) → (Fin n → Except ε α) → Except ε (Vector α n)
  | 0, _ => .ok #v[]
  | n + 1, f =>
    (tabulate n fun i => f i.castSucc).bind fun front =>
      (f (Fin.last n)).map front.push

theorem tabulate_eq_ok_iff {ε α : Type} {n : Nat} {f : Fin n → Except ε α} {v : Vector α n} :
    tabulate n f = .ok v ↔ ∀ i, f i = .ok (v.get i) := by
  induction n with
  | zero => exact ⟨fun _ i => i.elim0, fun _ => by simp [tabulate, Vector.eq_empty]⟩
  | succ n ih =>
    constructor
    · intro h
      unfold tabulate at h
      cases hfront : tabulate n fun i => f i.castSucc with
      | error e => simp [hfront, Except.bind] at h
      | ok front =>
        cases hlast : f (Fin.last n) with
        | error e => simp [hfront, hlast, Except.bind, Except.map] at h
        | ok x =>
          simp only [hfront, hlast, Except.bind, Except.map, Except.ok.injEq] at h
          subst h
          refine Fin.lastCases ?_ fun i => ?_
          · exact hlast.trans (congrArg _ Vector.getElem_push_last.symm)
          · exact (ih.1 hfront i).trans (congrArg _ (Vector.getElem_push_lt i.isLt).symm)
    · intro h
      have front : tabulate n (fun i => f i.castSucc) = .ok v.pop :=
        ih.2 fun i => (h i.castSucc).trans (congrArg _ (Vector.getElem_pop i.isLt).symm)
      have last : f (Fin.last n) = .ok v.back :=
        (h (Fin.last n)).trans (congrArg _ Vector.back_eq_getElem.symm)
      rw [tabulate, front, last]
      exact congrArg _ (Vector.push_pop_back v)

/-- The numbers that are not in a list: by number for the forward direction, and by falling number
for the backward one. -/
def Direction.others (d : Direction) {n : Nat} (reached : List (Fin n)) : List (Fin n) :=
  let others := (List.finRange n).filter (· ∉ reached)
  if d.isForward then others else others.reverse

namespace Graph

variable {ν : Type} [DecidableEq ν]

/-- The place of a node in a list, the last one if it occurs more than once. -/
def lastIndex? (v : ν) : (vs : List ν) → Option (Fin vs.length)
  | [] => none
  | w :: ws =>
    match lastIndex? v ws with
    | some i => some i.succ
    | none => if w = v then some ⟨0, Nat.succ_pos _⟩ else none

theorem get_of_lastIndex? {v : ν} {vs : List ν} {i : Fin vs.length} (h : lastIndex? v vs = some i) :
    vs.get i = v := by
  induction vs with
  | nil => simp [lastIndex?] at h
  | cons w ws ih =>
    unfold lastIndex? at h
    split at h
    next j hj => cases h; exact ih hj
    next =>
      split at h
      next same => cases h; exact same
      next => cases h

theorem lastIndex?_eq_none_iff {v : ν} {vs : List ν} : lastIndex? v vs = none ↔ v ∉ vs := by
  induction vs with
  | nil => simp [lastIndex?]
  | cons w ws ih =>
    rw [lastIndex?, List.mem_cons, not_or, ← ih]
    cases lastIndex? v ws with
    | some i => simp
    | none => by_cases same : w = v <;> simp [same, eq_comm (a := v)]

/-- The node of a number. -/
def node (g : Graph ν) (i : Fin g.size) : ν := g.nodes.get i

/-- The number of a node. -/
def number (g : Graph ν) (v : ν) : Except LookupError (Fin g.size) :=
  match lastIndex? v g.nodes with
  | some i => .ok i
  | none => .error .unlisted

theorem node_of_number {g : Graph ν} {v : ν} {i : Fin g.size} (h : g.number v = .ok i) :
    g.node i = v := by
  unfold number at h
  split at h
  next hj => cases h; exact get_of_lastIndex? hj
  next => cases h

/-- The numbers of the nodes of a list. -/
def numbers (g : Graph ν) (vs : List ν) : Except LookupError (List (Fin g.size)) :=
  vs.mapM g.number

/-- The numbers of the nodes in an answer of the graph. -/
def numbered (g : Graph ν) (answer : Except LookupError (List ν)) :
    Except LookupError (List (Fin g.size)) :=
  answer.bind g.numbers

/-- The order in which the nodes are visited: those that information from the boundary gets to, in
reverse post-order, and then the others. These are only looked for if nodes are missing. -/
def visitOrder (g : Graph ν) (d : Direction) (boundary : Fin g.size) :
    Except LookupError (List (Fin g.size)) :=
  (g.numbered ((d.flow g).reversePostorder (g.node boundary))).map fun reached =>
    if reached.length < g.size then reached ++ d.others reached else reached

/-- The boundary of a graph for a direction, if the graph suits it. -/
def boundary (g : Graph ν) (d : Direction) : Except (Cause ν) (Fin g.size) :=
  if g.isEmpty then .error .emptyGraph
  else do
    let v ← (d.flow g).entry.mapError .lookup
    if !g.contains v then .error (.unreachableBoundary v)
    else do
      let entry ← g.entry.mapError .lookup
      let reached ← (g.reaches entry v).mapError .lookup
      if !reached then .error (.unreachableBoundary v)
      else do
        let sources ← ((d.flow g).parents v).mapError .lookup
        if !sources.isEmpty then .error (.boundaryHasFlowEdges v sources.length)
        else (g.number v).mapError .lookup

end Graph

namespace Analysis

variable {ν F : Type} [DecidableEq ν]

/-- What the analysis does to the facts of a node, by role. -/
def transferSides (a : Analysis ν F) (v : ν) (sides : Sides F) : Sides F × Change :=
  let result := a.transfer v (a.direction.place sides)
  (a.direction.orient result.1, result.2)

/-- The equations of an analysis over a graph with a given boundary. -/
def equations (a : Analysis ν F) (g : Graph ν) (boundary : Fin g.size) : Equations g.size F where
  boundary := boundary
  boundaryFact := a.boundary
  initial := a.initial
  meet := a.meet
  transfer i := a.transferSides (g.node i)
  sources := (Vector.ofFn fun i => g.numbered ((a.direction.flow g).parents (g.node i))).get
  dependents := (Vector.ofFn fun i => g.numbered ((a.direction.flow g).children (g.node i))).get
  order := g.visitOrder a.direction boundary

/-- The equations of an analysis over a graph, if the graph suits the analysis. -/
def equations? (a : Analysis ν F) (g : Graph ν) : Except (Cause ν) (Equations g.size F) :=
  (g.boundary a.direction).map (a.equations g)

end Analysis

end FlowFacts

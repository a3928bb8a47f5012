import FlowFacts.Proofs.Dataflow.Termination
import FlowFacts.Proofs.Dataflow.Verification

/-!
# What verification decides

On a graph without edges from a node to itself, verification accepts the facts that every node makes
again of what it collects (`Analysis.Reproduced`), whatever the order in which the nodes are judged.
The two sides of a node are compared after its transfer function was applied. Where that leaves the
input side alone, reproduced facts are those that satisfy the equations side by side
(`Analysis.Consistent`); where it does not, what it writes there stands in for what the node
collects.
-/

namespace FlowFacts

theorem Graph.WellFormed.not_mem_parents {ν : Type} {g : Graph ν} (wf : g.WellFormed)
    (loopless : ∀ v ∈ g.nodes, ¬ g.Edge v v) (d : Direction) {v : ν} (hv : v ∈ g.nodes)
    {us : List ν} (hus : (d.flow g).parents v = .ok us) : v ∉ us := by
  intro hmem
  apply loopless v hv
  cases d with
  | forward => exact (wf.edge_inverse v hv v hv).1 ⟨us, hus, hmem⟩
  | backward => exact ⟨us, hus, hmem⟩

namespace Analysis

variable {ν F : Type} [LE F]

/-- Every node makes its facts again of what it collects and the initial fact. -/
structure Reproduced (a : Analysis ν F) (g : Graph ν) (X : ν → Sides F) : Prop where
  boundary : ∀ v, (a.direction.flow g).entry = .ok v → (X v).input = a.boundary
  entered : ∀ v ∈ g.nodes, (a.direction.flow g).entry = .ok v →
    Yields (a.transferSides v) ⟨(X v).input, a.initial⟩ (X v)
  collected : ∀ v ∈ g.nodes, (a.direction.flow g).entry ≠ .ok v →
    ∀ us, (a.direction.flow g).parents v = .ok us →
      Yields (a.transferSides v) ⟨a.meetOf X us, a.initial⟩ (X v)

/-- The input side of every node is what it collects, and the node makes its facts again of that
side and the initial fact. -/
structure Consistent (a : Analysis ν F) (g : Graph ν) (X : ν → Sides F) : Prop where
  boundary : ∀ v, (a.direction.flow g).entry = .ok v → (X v).input = a.boundary
  input : ∀ v ∈ g.nodes, (a.direction.flow g).entry ≠ .ok v →
    ∀ us, (a.direction.flow g).parents v = .ok us → (X v).input = a.meetOf X us
  yields : ∀ v ∈ g.nodes, Yields (a.transferSides v) ⟨(X v).input, a.initial⟩ (X v)

variable {a : Analysis ν F} {g : Graph ν} {X : ν → Sides F}

theorem Consistent.reproduced (h : a.Consistent g X) : a.Reproduced g X where
  boundary := h.boundary
  entered v hv _ := h.yields v hv
  collected v hv hne us hus := by
    rw [← h.input v hv hne us hus]
    exact h.yields v hv

theorem Reproduced.consistent_iff (wf : g.WellFormed)
    (keeps : ∀ v ∈ g.nodes, ∀ sides, (a.transferSides v sides).1.input = sides.input) :
    a.Reproduced g X ↔ a.Consistent g X := by
  refine ⟨fun h => ?_, Consistent.reproduced⟩
  have input : ∀ v ∈ g.nodes, (a.direction.flow g).entry ≠ .ok v →
      ∀ us, (a.direction.flow g).parents v = .ok us → (X v).input = a.meetOf X us := by
    intro v hv hne us hus
    rw [← (h.collected v hv hne us hus).left_eq, keeps v hv]
  refine ⟨h.boundary, input, fun v hv => ?_⟩
  by_cases hentry : (a.direction.flow g).entry = .ok v
  · exact h.entered v hv hentry
  · obtain ⟨us, hus, -⟩ := (wf.flow a.direction).parents v (by simpa using hv)
    rw [input v hv hentry us hus]
    exact h.collected v hv hentry us hus

/-- Where facts are joined, a node makes of what it collects what its function makes of it. -/
theorem Accumulates.yields_iff {F : Type} [SemilatticeSup F] {a : Analysis ν F} {f : ν → F → F}
    (acc : a.Accumulates g f) {v : ν} (hv : v ∈ g.nodes) {x : F} {facts : Sides F} :
    Yields (a.transferSides v) ⟨x, a.initial⟩ facts ↔ facts = ⟨x, f v x⟩ := by
  have result : (a.transferSides v ⟨x, a.initial⟩).1 = ⟨x, f v x⟩ := by
    rw [acc.transfer_eq v hv, sup_eq_right.2 (acc.initial_le _)]
  constructor
  · intro h
    rw [← h.left_eq, result]
  · rintro rfl
    refine ⟨result, acc.initial_le _, ?_⟩
    rw [acc.report_iff v hv, result]

variable [DecidableEq ν] {boundary : Fin g.size}

theorem reproduced_iff (wf : g.WellFormed) (loopless : ∀ v ∈ g.nodes, ¬ g.Edge v v)
    (hb : g.boundary a.direction = .ok boundary) :
    a.Reproduced g X ↔
      (X (g.node boundary)).input = a.boundary ∧ ∀ v ∈ g.nodes, a.Stands g X v := by
  have hentry := (Graph.boundary_eq_ok hb).1
  have apart : ∀ v ∈ g.nodes, ∀ us, (a.direction.flow g).parents v = .ok us →
      a.meetOf (a.without X v) us = a.meetOf X us :=
    fun v hv us hus => meetOf_without (wf.not_mem_parents loopless a.direction hv hus)
  constructor
  · intro h
    refine ⟨h.boundary _ hentry, fun v hv => ⟨h.entered v hv, fun hne us hus => ?_⟩⟩
    rw [apart v hv us hus]
    exact h.collected v hv hne us hus
  · rintro ⟨hboundary, stands⟩
    refine ⟨fun v hv => ?_, fun v hv => (stands v hv).entered, fun v hv hne us hus => ?_⟩
    · cases hentry.symm.trans hv
      exact hboundary
    · rw [← apart v hv us hus]
      exact (stands v hv).collected hne us hus

variable [DecidableLE F] [DecidableEq F]

/-- Verification accepts the facts that are reproduced, and judges the nodes in an order that makes
no difference to that. Consistent facts are reproduced, and where the transfer functions leave the
input side alone, these are all. -/
theorem verify_iff_reproduced (wf : g.WellFormed) (loopless : ∀ v ∈ g.nodes, ¬ g.Edge v v)
    (hb : g.boundary a.direction = .ok boundary) {s : Solution ν F}
    (facts : ∀ v ∈ g.nodes, s.facts? v = some (a.direction.place (X v))) :
    ((a.verify g s).outcome = .ok () ↔ a.Reproduced g X) ∧
      (a.Consistent g X → a.Reproduced g X) ∧
      ((∀ v ∈ g.nodes, ∀ sides, (a.transferSides v sides).1.input = sides.input) →
        (a.Reproduced g X ↔ a.Consistent g X)) ∧
      ∀ order : List (Fin g.size), (∀ i, i ∈ order) → ∀ store, a.storeOf g s = .ok store →
        ((a.verify g s).outcome = .ok () ↔
          (((a.equations g boundary).inOrder order).check store).2 = none) := by
  refine ⟨(verify_eq_ok_iff wf hb facts).trans (reproduced_iff wf loopless hb).symm,
    Consistent.reproduced, Reproduced.consistent_iff wf, fun order covers store hs => ?_⟩
  obtain ⟨order', horder, -⟩ := wf.exists_visitOrder a.direction boundary
  rw [Equations.check_inOrder_eq_none_iff horder (Graph.mem_visitOrder horder) covers]
  exact verify_eq_ok_iff_check hb hs

/-- Where the transfer functions keep the contract, facts for all nodes are accepted or are said not
to be a fixpoint. -/
theorem verify_of_grows (wf : g.WellFormed) (grows : a.Grows g)
    (hb : g.boundary a.direction = .ok boundary) {s : Solution ν F}
    (facts : ∀ v ∈ g.nodes, s.facts? v = some (a.direction.place (X v))) :
    (a.verify g s).outcome = .ok () ∨
      ∃ v ∈ g.nodes, ∃ side, (a.verify g s).outcome =
        .error (a.failure (.notAFixpoint v side)) := by
  obtain ⟨store, hX⟩ : ∃ store : Store g.size F, ∀ i, store.get i = X (g.node i) :=
    ⟨.ofFn fun i => X (g.node i), fun i => by exact Vector.getElem_ofFn i.isLt⟩
  have hs : a.storeOf g s = .ok store :=
    storeOf_eq_ok_iff.2 fun i => by rw [hX, facts _ (Graph.node_mem i)]
  rw [outcome_verify hb hs]
  cases hcheck : ((a.equations g boundary).check store).2 with
  | none => exact .inl rfl
  | some stop =>
    obtain ⟨order, horder, -⟩ := wf.exists_visitOrder a.direction boundary
    have complete : (a.equations g boundary).Complete := complete_equations wf
    have growing : (a.equations g boundary).Grows := grows.equations
    obtain ⟨i, role, rfl⟩ := growing.unstable_of_check complete.exists_visit horder hcheck
    exact .inr ⟨g.node i, Graph.node_mem i, a.direction.side role, rfl⟩

/-- Two nodes, one after the other. -/
def straight : Graph Nat where
  nodes := [0, 1]
  entry := .ok 0
  exit := .ok 1
  children
    | 0 => .ok [1]
    | _ => .ok []
  parents
    | 1 => .ok [0]
    | _ => .ok []

/-- The number of nodes passed before each node of `straight` and after it. -/
def countedStraight : Solution Nat Nat where
  entries := [(0, ⟨0, 1⟩), (1, ⟨1, 2⟩)]
  stats := ⟨⟨2, 4⟩, .roundRobin⟩

theorem verify_iff_reproduced_straight :
    (passedNodes.verify straight countedStraight).outcome = .ok () ∧
      passedNodes.Consistent straight (fun v => ⟨v, v + 1⟩) ∧
      (((passedNodes.equations straight ⟨0, by decide⟩).inOrder
          [⟨1, by decide⟩, ⟨0, by decide⟩]).check
        #v[⟨0, 1⟩, ⟨1, 2⟩]).2 = none := by
  have suits : straight.boundary .forward = .ok ⟨0, by decide⟩ := by decide +kernel
  have accepted : (passedNodes.verify straight countedStraight).outcome = .ok () := by
    decide +kernel
  obtain ⟨decides, -, same, anyOrder⟩ := verify_iff_reproduced (a := passedNodes)
    (s := countedStraight) (X := fun v => ⟨v, v + 1⟩) (by decide) (by decide) suits (by decide)
  refine ⟨accepted, (same fun _ _ _ => rfl).1 (decides.1 accepted), ?_⟩
  exact (anyOrder _ (by decide) _ (by decide +kernel)).1 accepted

/-- Whether something is marked, on the way to a node and on the way out of it. Every node marks
what comes in, and only node 0 takes the mark off again. -/
def marking : Analysis Nat Bool where
  name := "marking"
  direction := .forward
  boundary := true
  initial := false
  meet fact target := target || fact
  transfer v facts :=
    let after := facts.after || v ≠ 0
    (⟨true, after⟩, .ofBool (after != facts.after))

/-- A node that writes its input side can make up for what it does not collect. Nothing marked
leaves node 0, yet what comes in at node 1 is marked, in the result of a run and for the
verification of it. -/
theorem verify_accepts_marked :
    straight.WellFormed ∧ (∀ v ∈ straight.nodes, ¬ straight.Edge v v) ∧
      straight.boundary .forward = .ok ⟨0, by decide⟩ ∧
      ∃ s, (marking.solve {} straight).outcome = .ok s ∧
        (marking.verify straight s).outcome = .ok () ∧
        ∀ X, (∀ v ∈ straight.nodes, s.facts? v = some ⟨(X v).input, (X v).output⟩) →
          ¬ marking.Consistent straight X := by
  obtain ⟨s, hs, accepted, first, second⟩ : ∃ s, (marking.solve {} straight).outcome = .ok s ∧
      (marking.verify straight s).outcome = .ok () ∧
      s.facts? 0 = some ⟨true, false⟩ ∧ s.facts? 1 = some ⟨true, true⟩ := by decide +kernel
  refine ⟨by decide, by decide, by decide +kernel, s, hs, accepted, fun X facts consistent => ?_⟩
  have unmarked : (X 0).output = false := by
    have := first.symm.trans (facts 0 (by decide))
    simp_all
  have marked : (X 1).input = true := by
    have := second.symm.trans (facts 1 (by decide))
    simp_all
  have collected := consistent.input 1 (by decide) (by decide) [0] rfl
  simp [meetOf, marking, unmarked, marked] at collected

end Analysis

end FlowFacts

import FlowFacts.Proofs.Dataflow.LeastSolution
import FlowFacts.Proofs.Dataflow.VisitOrder

/-!
# Facts that verification accepts

`Analysis.FixedBy` says of facts for the nodes of a graph that they are a fixpoint: at the boundary
comes in what the analysis says, elsewhere the meet over the outputs of the flow sources, and the
output is what the transfer function makes of the input and the initial fact. Verification takes the
output of a node away before it visits the node (`Analysis.without`), so a node that is a source of
itself is not held to the meet over all of its sources. Up to that, what is accepted is a fixpoint
(`Analysis.accepted_of_verify`).
-/

namespace FlowFacts.Analysis

variable {ν F : Type}

/-- The meet over the outputs of some nodes. -/
def meetOf (a : Analysis ν F) (X : ν → Sides F) (us : List ν) : F :=
  us.foldl (fun target u => a.meet (X u).output target) a.initial

/-- The facts are what the analysis makes of them. -/
structure FixedBy (a : Analysis ν F) (g : Graph ν) (X : ν → Sides F) : Prop where
  boundary : ∀ v, (a.direction.flow g).entry = .ok v → (X v).input = a.boundary
  input : ∀ v ∈ g.nodes, (a.direction.flow g).entry ≠ .ok v →
    ∀ us, (a.direction.flow g).parents v = .ok us → (X v).input = a.meetOf X us
  output : ∀ v ∈ g.nodes, (X v).output = (a.transferSides v ⟨(X v).input, a.initial⟩).1.output

variable {a : Analysis ν F} {g : Graph ν} {X : ν → Sides F}

theorem meetOf_congr {Y : ν → Sides F} {us : List ν}
    (h : ∀ u ∈ us, (X u).output = (Y u).output) : a.meetOf X us = a.meetOf Y us :=
  List.foldl_rel rfl fun u hu _ _ same => by rw [h u hu, same]

variable [DecidableEq ν]

/-- The facts with the initial fact for the output of a node. -/
def without (a : Analysis ν F) (X : ν → Sides F) (v : ν) : ν → Sides F :=
  Function.update X v ⟨(X v).input, a.initial⟩

/-- The facts are what a visit of each node, with its own output taken away, makes of them. -/
structure Accepted (a : Analysis ν F) (g : Graph ν) (X : ν → Sides F) : Prop where
  boundary : ∀ v, (a.direction.flow g).entry = .ok v → (X v).input = a.boundary
  entered : ∀ v ∈ g.nodes, (a.direction.flow g).entry = .ok v →
    (a.transferSides v ⟨(X v).input, a.initial⟩).1 = X v
  collected : ∀ v ∈ g.nodes, (a.direction.flow g).entry ≠ .ok v →
    ∀ us, (a.direction.flow g).parents v = .ok us →
      (a.transferSides v ⟨a.meetOf (a.without X v) us, a.initial⟩).1 = X v

/-- A visit of the node, with its own output taken away, makes its facts again and keeps the
contract. -/
structure Stands [LE F] (a : Analysis ν F) (g : Graph ν) (X : ν → Sides F) (v : ν) : Prop where
  entered : (a.direction.flow g).entry = .ok v →
    Yields (a.transferSides v) ⟨(X v).input, a.initial⟩ (X v)
  collected : (a.direction.flow g).entry ≠ .ok v →
    ∀ us, (a.direction.flow g).parents v = .ok us →
      Yields (a.transferSides v) ⟨a.meetOf (a.without X v) us, a.initial⟩ (X v)

/-- Only a node that is a source of itself misses its own output. -/
theorem meetOf_without {v : ν} {us : List ν} (h : v ∉ us) :
    a.meetOf (a.without X v) us = a.meetOf X us := by
  refine meetOf_congr fun u hu => ?_
  rw [without, Function.update_of_ne]
  rintro rfl
  exact h hu

/-- Where the transfer functions leave the inputs alone, accepted facts are a fixpoint up to the
nodes that are sources of themselves. -/
theorem Accepted.fixedBy_iff (accepted : a.Accepted g X) (wf : g.WellFormed)
    (keeps : ∀ v ∈ g.nodes, ∀ sides, (a.transferSides v sides).1.input = sides.input) :
    a.FixedBy g X ↔ ∀ v ∈ g.nodes, (a.direction.flow g).entry ≠ .ok v →
      ∀ us, (a.direction.flow g).parents v = .ok us → v ∈ us →
        a.meetOf X us = a.meetOf (a.without X v) us := by
  have input : ∀ v ∈ g.nodes, (a.direction.flow g).entry ≠ .ok v →
      ∀ us, (a.direction.flow g).parents v = .ok us →
        (X v).input = a.meetOf (a.without X v) us := by
    intro v hv hne us hus
    rw [← accepted.collected v hv hne us hus, keeps v hv]
  constructor
  · intro fixed v hv hne us hus _
    exact (fixed.input v hv hne us hus).symm.trans (input v hv hne us hus)
  · intro own
    refine ⟨accepted.boundary, fun v hv hne us hus => ?_, fun v hv => ?_⟩
    · by_cases hself : v ∈ us
      · exact (input v hv hne us hus).trans (own v hv hne us hus hself).symm
      · exact (input v hv hne us hus).trans (meetOf_without hself)
    · by_cases hentry : (a.direction.flow g).entry = .ok v
      · rw [accepted.entered v hv hentry]
      · obtain ⟨us, hus, -⟩ := (wf.flow a.direction).parents v (by simpa using hv)
        rw [input v hv hentry us hus, accepted.collected v hv hentry us hus]

section

variable {boundary : Fin g.size} {store : Store g.size F} (hX : ∀ i, X (g.node i) = store.get i)
include hX

/-- What is collected over some nodes, by node and by number. -/
theorem meetOf_node (sources : List (Fin g.size)) :
    a.meetOf X (sources.map g.node) = (a.equations g boundary).meetOver store sources := by
  rw [meetOf, List.foldl_map]
  refine List.foldl_rel rfl fun j _ _ _ same => ?_
  rw [hX, same]
  rfl

/-- What a node collects while its output is away, by node and by number. -/
theorem meetOf_without_node (nodup : g.nodes.Nodup) (i : Fin g.size)
    (sources : List (Fin g.size)) :
    a.meetOf (a.without X (g.node i)) (sources.map g.node) =
      (a.equations g boundary).meetOver ((a.equations g boundary).cleared store i) sources := by
  refine meetOf_node (fun j => ?_) sources
  rw [Equations.get_cleared, without]
  by_cases hij : i = j
  · rw [if_pos hij, hij, Function.update_self, hX]
    rfl
  · rw [if_neg hij, Function.update_of_ne (mt (@Graph.node_injective _ g nodup j i) (Ne.symm hij)),
      hX]

end

variable [LE F] [DecidableLE F] [DecidableEq F]

/-- There is nothing to object to at a node that stands. -/
theorem objection?_node {boundary : Fin g.size} {store : Store g.size F} (wf : g.WellFormed)
    (hentry : (a.direction.flow g).entry = .ok (g.node boundary))
    (hX : ∀ i, X (g.node i) = store.get i) (i : Fin g.size) :
    (a.equations g boundary).objection? store i = none ↔ a.Stands g X (g.node i) := by
  rw [Equations.objection?_eq_none_iff_yields, ← hX]
  by_cases hi : i = boundary
  · have collects : (a.equations g boundary).gather
        ((a.equations g boundary).cleared store i) i = .ok (X (g.node i)).input := by
      refine (if_pos hi).trans ?_
      rw [Equations.get_cleared, hX]
    simp only [collects, Except.ok.injEq, exists_eq_left']
    rw [← hi] at hentry
    exact ⟨fun yields => ⟨fun _ => yields, fun hne => absurd hentry hne⟩, fun h => h.entered hentry⟩
  · have hne : (a.direction.flow g).entry ≠ .ok (g.node i) := by
      intro same
      exact hi (Graph.node_injective wf.nodup (Except.ok.inj (hentry.symm.trans same))).symm
    obtain ⟨sources, hs, hparents⟩ := exists_sources a boundary wf i
    have collects : (a.equations g boundary).gather
        ((a.equations g boundary).cleared store i) i =
          .ok (a.meetOf (a.without X (g.node i)) (sources.map g.node)) := by
      rw [Equations.gather_of_ne hi, hs, meetOf_without_node hX wf.nodup]
      rfl
    simp only [collects, Except.ok.injEq, exists_eq_left']
    refine ⟨fun yields => ⟨fun same => absurd same hne, fun _ us hus => ?_⟩, fun h => ?_⟩
    · cases hus.symm.trans hparents
      exact yields
    · exact h.collected hne _ hparents

/-- Facts are accepted exactly if the boundary has what comes in from outside and every node
stands. -/
theorem verify_eq_ok_iff {boundary : Fin g.size} (wf : g.WellFormed)
    (hb : g.boundary a.direction = .ok boundary) {s : Solution ν F}
    (facts : ∀ v ∈ g.nodes, s.facts? v = some (a.direction.place (X v))) :
    (a.verify g s).outcome = .ok () ↔
      (X (g.node boundary)).input = a.boundary ∧ ∀ v ∈ g.nodes, a.Stands g X v := by
  obtain ⟨store, hX⟩ : ∃ store : Store g.size F, ∀ i, store.get i = X (g.node i) :=
    ⟨.ofFn fun i => X (g.node i), fun i => by exact Vector.getElem_ofFn i.isLt⟩
  have hs : a.storeOf g s = .ok store :=
    storeOf_eq_ok_iff.2 fun i => by rw [hX, facts _ (Graph.node_mem i)]
  have objection := objection?_node wf (Graph.boundary_eq_ok hb).1 fun i => (hX i).symm
  obtain ⟨order, horder, -⟩ := wf.exists_visitOrder a.direction boundary
  have decided := Equations.check_eq_none_iff (E := a.equations g boundary)
    horder (Graph.mem_visitOrder horder) store
  simp only [Graph.forall_node, ← objection, ← hX]
  exact (verify_eq_ok_iff_check hb hs).trans decided

theorem accepted_of_verify (wf : g.WellFormed) {s : Solution ν F}
    (h : (a.verify g s).outcome = .ok ()) :
    ∃ X, (∀ v ∈ g.nodes, s.facts? v = some (a.direction.place (X v))) ∧ a.Accepted g X := by
  obtain ⟨boundary, store, hb, hs, -⟩ := verify_eq_ok h
  have hnode := Graph.byNode_node wf.nodup store.get ⟨a.initial, a.initial⟩
  have facts : ∀ v ∈ g.nodes, s.facts? v =
      some (a.direction.place (g.byNode store.get ⟨a.initial, a.initial⟩ v)) := by
    refine Graph.forall_node.2 fun i => ?_
    rw [hnode, storeOf_eq_ok_iff.1 hs i]
  obtain ⟨hboundary, stands⟩ := (verify_eq_ok_iff wf hb facts).1 h
  refine ⟨_, facts, fun v hv => ?_, fun v hv hev => ?_, fun v hv hne us hus => ?_⟩
  · cases (Graph.boundary_eq_ok hb).1.symm.trans hv
    exact hboundary
  · exact ((stands v hv).entered hev).left_eq
  · exact ((stands v hv).collected hne us hus).left_eq

/-- What is accepted is what a visit of each node makes of it while the output of the node is away.
It is a fixpoint exactly if no node that is a source of itself collects anything of its own. -/
theorem fixedBy_iff_of_verify (wf : g.WellFormed) {s : Solution ν F}
    (h : (a.verify g s).outcome = .ok ()) :
    ∃ X, (∀ v ∈ g.nodes, s.facts? v = some (a.direction.place (X v))) ∧ a.Accepted g X ∧
      ((∀ v ∈ g.nodes, ∀ sides, (a.transferSides v sides).1.input = sides.input) →
        (a.FixedBy g X ↔ ∀ v ∈ g.nodes, (a.direction.flow g).entry ≠ .ok v →
          ∀ us, (a.direction.flow g).parents v = .ok us → v ∈ us →
            a.meetOf X us = a.meetOf (a.without X v) us)) := by
  obtain ⟨X, facts, accepted⟩ := accepted_of_verify wf h
  exact ⟨X, facts, accepted, accepted.fixedBy_iff wf⟩

/-- Facts for `spinning` from before there was an edge from the middle node to itself. -/
def unspun : Solution Nat Nat where
  entries := [(0, ⟨0, 1⟩), (1, ⟨1, 2⟩), (2, ⟨2, 3⟩)]
  stats := ⟨⟨2, 6⟩, .roundRobin⟩

theorem fixedBy_iff_unspun :
    ∃ X, (∀ v ∈ spinning.nodes, unspun.facts? v = some ⟨(X v).input, (X v).output⟩) ∧
      passedNodes.Accepted spinning X ∧
      (passedNodes.FixedBy spinning X ↔ ∀ v ∈ spinning.nodes, spinning.entry ≠ .ok v →
        ∀ us, spinning.parents v = .ok us → v ∈ us →
          passedNodes.meetOf X us = passedNodes.meetOf (passedNodes.without X v) us) := by
  obtain ⟨X, facts, accepted, exact⟩ :=
    fixedBy_iff_of_verify (a := passedNodes) (g := spinning) (s := unspun) (by decide)
      (by decide +kernel)
  exact ⟨X, facts, accepted, exact fun _ _ _ => rfl⟩

/-- These facts are accepted, though the middle node sends more to itself than comes in there. -/
theorem verify_accepts_unspun :
    spinning.WellFormed ∧ (passedNodes.verify spinning unspun).outcome = .ok () ∧
      ∀ X, (∀ v ∈ spinning.nodes, unspun.facts? v = some ⟨(X v).input, (X v).output⟩) →
        ¬ passedNodes.FixedBy spinning X := by
  refine ⟨by decide, by decide +kernel, fun X facts fixed => ?_⟩
  obtain ⟨input, output⟩ : (X 1).input = 1 ∧ (X 1).output = 2 := by
    simpa using (Option.some.inj (facts 1 (by decide))).symm
  have own := fixed.input 1 (by decide) (by decide) [0, 1] rfl
  have larger : (X 1).output ≤ passedNodes.meetOf X [0, 1] := Nat.le_max_right _ _
  omega

end FlowFacts.Analysis

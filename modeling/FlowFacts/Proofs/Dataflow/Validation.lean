import FlowFacts.Proofs.Dataflow.Numbering
import FlowFacts.Proofs.Graph.Postorder

/-!
# Which graphs suit a direction

`Graph.Unsuited` says when a graph does not suit a direction, with the reason that is given: the
graph has no nodes, or no path leads from its entry to the boundary, or information flows into the
boundary. The first of these that applies is the one that is given (`Graph.Unsuited.unique`). On a
well-formed and anchored graph no question remains unanswered on the way, so a graph without a
boundary is an unsuited one (`Graph.WellFormed.boundary_eq_error_iff`).
-/

namespace FlowFacts.Graph

variable {ν : Type} {g : Graph ν} {d : Direction} {cause : Cause ν}

/-- Why a graph does not suit a direction. -/
inductive Unsuited (g : Graph ν) (d : Direction) : Cause ν → Prop
  | empty : g.nodes = [] → Unsuited g d .emptyGraph
  | unreachable {u v} : g.entry = .ok u → (d.flow g).entry = .ok v → ¬ g.Reachable u v →
    Unsuited g d (.unreachableBoundary v)
  | fed {u v us} : g.entry = .ok u → (d.flow g).entry = .ok v → g.Reachable u v →
    (d.flow g).parents v = .ok us → us ≠ [] → Unsuited g d (.boundaryHasFlowEdges v us.length)

theorem unsuited_emptyGraph_iff : g.Unsuited d .emptyGraph ↔ g.nodes = [] := by
  constructor
  · intro unsuited
    cases unsuited with
    | empty hnil => exact hnil
  · exact .empty

theorem unsuited_unreachableBoundary_iff {v : ν} :
    g.Unsuited d (.unreachableBoundary v) ↔
      (d.flow g).entry = .ok v ∧ ∃ u, g.entry = .ok u ∧ ¬ g.Reachable u v := by
  constructor
  · intro unsuited
    cases unsuited with
    | unreachable hu hv apart => exact ⟨hv, _, hu, apart⟩
  · rintro ⟨hv, u, hu, apart⟩
    exact .unreachable hu hv apart

theorem unsuited_boundaryHasFlowEdges_iff {v : ν} {count : Nat} :
    g.Unsuited d (.boundaryHasFlowEdges v count) ↔
      (d.flow g).entry = .ok v ∧ (∃ u, g.entry = .ok u ∧ g.Reachable u v) ∧
        ∃ us, (d.flow g).parents v = .ok us ∧ us.length = count ∧ 0 < count := by
  constructor
  · intro unsuited
    cases unsuited with
    | fed hu hv reached hus some =>
      exact ⟨hv, ⟨_, hu, reached⟩, _, hus, rfl, List.length_pos_of_ne_nil some⟩
  · rintro ⟨hv, ⟨u, hu, reached⟩, us, hus, rfl, pos⟩
    exact .fed hu hv reached hus (List.ne_nil_of_length_pos pos)

/-- There is only one reason. -/
theorem Unsuited.unique (anchored : g.Anchored) {cause' : Cause ν} (h : g.Unsuited d cause)
    (h' : g.Unsuited d cause') : cause = cause' := by
  have entered : ∀ {u}, g.nodes = [] → g.entry ≠ .ok u := fun hnil hu =>
    List.not_mem_nil (hnil ▸ anchored.entry_mem _ hu)
  cases h with
  | empty hnil =>
    cases h' with
    | empty => rfl
    | unreachable hu => exact absurd hu (entered hnil)
    | fed hu => exact absurd hu (entered hnil)
  | unreachable hu hv apart =>
    cases h' with
    | empty hnil => exact absurd hu (entered hnil)
    | unreachable _ hv' => cases hv.symm.trans hv'; rfl
    | fed hu' hv' reached =>
      cases hu.symm.trans hu'
      cases hv.symm.trans hv'
      exact absurd reached apart
  | fed hu hv reached hus =>
    cases h' with
    | empty hnil => exact absurd hu (entered hnil)
    | unreachable hu' hv' apart =>
      cases hu.symm.trans hu'
      cases hv.symm.trans hv'
      exact absurd reached apart
    | fed _ hv' _ hus' =>
      cases hv.symm.trans hv'
      cases hus.symm.trans hus'
      rfl

variable [DecidableEq ν]

theorem number_eq_ok (nodup : g.nodes.Nodup) {v : ν} (hv : v ∈ g.nodes) :
    ∃ i, g.node i = v ∧ g.number v = .ok i := by
  obtain ⟨i, rfl⟩ := exists_node hv
  exact ⟨i, rfl, number_node nodup i⟩

/-- A graph either suits a direction, and then has its boundary where the flow enters, or it does
not. -/
theorem WellFormed.boundary_cases (wf : g.WellFormed) (anchored : g.Anchored) (d : Direction) :
    (∃ u boundary, g.entry = .ok u ∧ (d.flow g).entry = .ok (g.node boundary) ∧
      g.Reachable u (g.node boundary) ∧ (d.flow g).parents (g.node boundary) = .ok [] ∧
      g.boundary d = .ok boundary) ∨
    ∃ cause, g.Unsuited d cause ∧ g.boundary d = .error cause := by
  unfold Graph.boundary
  split
  next hnil =>
    exact .inr ⟨_, .empty (List.isEmpty_iff.1 hnil), rfl⟩
  next some =>
    have nonempty : g.nodes ≠ [] := mt List.isEmpty_iff.2 some
    obtain ⟨u, hu⟩ := anchored.entry nonempty
    obtain ⟨v, hv⟩ := (anchored.flow d).entry (by rwa [nodes_flow])
    have hmem : v ∈ g.nodes := by simpa using (anchored.flow d).entry_mem v hv
    obtain ⟨answer, hanswer, reached_iff⟩ := wf.exists_reaches (anchored.entry_mem u hu) v
    obtain ⟨us, hus, -⟩ := (wf.flow d).parents v (by rwa [nodes_flow])
    obtain ⟨i, rfl, hi⟩ := number_eq_ok wf.nodup hmem
    have listed : g.contains (g.node i) = true := decide_eq_true hmem
    simp only [hv, hu, hanswer, hus, hi, listed, Except.mapError, bind, Except.bind, Bool.not_true,
      Bool.false_eq_true, if_false]
    cases answer with
    | false => exact .inr ⟨_, .unreachable hu hv (mt reached_iff.2 Bool.false_ne_true), rfl⟩
    | true =>
      cases us with
      | nil => exact .inl ⟨u, i, rfl, rfl, reached_iff.1 rfl, hus, rfl⟩
      | cons w ws =>
        exact .inr ⟨_, .fed hu hv (reached_iff.1 rfl) hus (List.cons_ne_nil w ws), rfl⟩

theorem WellFormed.boundary_eq_error_iff (wf : g.WellFormed) (anchored : g.Anchored) :
    g.boundary d = .error cause ↔ g.Unsuited d cause := by
  rcases wf.boundary_cases anchored d with ⟨u, i, hu, hv, reached, hus, hb⟩ | ⟨cause', h, hb⟩
  · rw [hb]
    refine iff_of_false nofun fun h => ?_
    cases h with
    | empty hnil => exact List.not_mem_nil (hnil ▸ node_mem i)
    | unreachable hu' hv' apart =>
      cases hu.symm.trans hu'
      cases hv.symm.trans hv'
      exact apart reached
    | fed _ hv' _ hus' some =>
      cases hv.symm.trans hv'
      cases hus.symm.trans hus'
      exact some rfl
  · rw [hb, Except.error.injEq]
    exact ⟨fun same => same ▸ h, h.unique anchored⟩

end FlowFacts.Graph

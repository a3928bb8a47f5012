import FlowFacts.Proofs.Dataflow.Numbering
import FlowFacts.Proofs.Graph.Topological

/-!
# The order of visits

On a well-formed graph the order in which nodes are visited exists, whatever the direction and the
boundary, and has every node once: first those that information from the boundary gets to, in
reverse post-order, then the others (`Graph.WellFormed.covers_each_once`). Where information from
the boundary gets to every node and never comes back to one, each node comes before those that it
has flow edges to (`Graph.WellFormed.mem_back_of_visitOrder`).
-/

namespace FlowFacts.Graph

variable {ν : Type} [DecidableEq ν] {g : Graph ν} {d : Direction} {boundary : Fin g.size}

/-- Reverse post-order starts with the boundary and has the nodes that information from there gets
to, each before the nodes that it has flow edges to, save for those that lead back to it. -/
theorem WellFormed.exists_reversePostorder (wf : g.WellFormed) (d : Direction)
    (boundary : Fin g.size) :
    ∃ reached, g.numbered ((d.flow g).reversePostorder (g.node boundary)) = .ok reached ∧
      reached.head? = some boundary ∧
      (∀ i, i ∈ reached ↔ (d.flow g).Reachable (g.node boundary) (g.node i)) ∧
      ∀ front i back, reached = front ++ i :: back → ∀ j, (d.flow g).Edge (g.node i) (g.node j) →
        j ∈ back ∨ (d.flow g).Reachable (g.node j) (g.node i) := by
  have hroot : g.node boundary ∈ (d.flow g).nodes := by simp [node_mem]
  obtain ⟨vs, lists, hvs⟩ := (wf.flow d).exists_lists hroot
  obtain ⟨reached, hreached⟩ : ∃ is : List (Fin g.size), is.map g.node = vs.reverse := by
    refine exists_numbers fun v hv => ?_
    have listed := (wf.flow d).mem_of_reachable hroot ((lists.mem_iff v).1 (List.mem_reverse.1 hv))
    simpa using listed
  have injective := node_injective wf.nodup
  refine ⟨reached, ?_, ?_, fun i => ?_, ?_⟩
  · rw [numbered_eq_ok_iff wf.nodup, reversePostorder, hvs, hreached]
    rfl
  · have first : reached.head?.map g.node = some (g.node boundary) := by
      rw [← List.head?_map, hreached, List.head?_reverse, lists.nodup_and_getLast?.2]
    obtain ⟨i, hi, same⟩ := Option.map_eq_some_iff.1 first
    rw [hi, injective same]
  · have listed : g.node i ∈ vs.reverse ↔ i ∈ reached := by
      rw [← hreached, List.mem_map_of_injective injective]
    rw [← listed, List.mem_reverse, lists.mem_iff]
  · rintro front i back rfl j edge
    have hdecomposed :
        vs = (back.map g.node).reverse ++ g.node i :: (front.map g.node).reverse := by
      rw [← List.reverse_reverse vs, ← hreached]
      simp
    refine (lists.nested hdecomposed edge).imp_left fun earlier => ?_
    rwa [List.mem_reverse, List.mem_map_of_injective injective] at earlier

theorem nodup_of_visitOrder {order : List (Fin g.size)} (h : g.visitOrder d boundary = .ok order) :
    order.Nodup := by
  obtain ⟨reached, hnumbered, rfl⟩ := visitOrder_eq_ok_iff.1 h
  refine List.nodup_append.2 ⟨nodup_of_numbered hnumbered, d.nodup_others reached, ?_⟩
  rintro i hi _ hj rfl
  exact d.mem_others.1 hj hi

theorem WellFormed.exists_visitOrder (wf : g.WellFormed) (d : Direction) (boundary : Fin g.size) :
    ∃ order, g.visitOrder d boundary = .ok order ∧ order.Nodup := by
  obtain ⟨reached, hnumbered, -⟩ := wf.exists_reversePostorder d boundary
  have horder := visitOrder_eq_ok_iff.2 ⟨reached, hnumbered, rfl⟩
  exact ⟨_, horder, nodup_of_visitOrder horder⟩

/-- Where information from the boundary gets to every node, reverse post-order is the whole
order. -/
theorem WellFormed.visitOrder_eq (wf : g.WellFormed)
    (reached : ∀ v ∈ g.nodes, (d.flow g).Reachable (g.node boundary) v) :
    g.visitOrder d boundary = g.numbered ((d.flow g).reversePostorder (g.node boundary)) := by
  obtain ⟨order, hnumbered, -, hmem, -⟩ := wf.exists_reversePostorder d boundary
  have none_left : d.others order = [] := List.eq_nil_iff_forall_not_mem.2 fun i hi =>
    d.mem_others.1 hi ((hmem i).2 (reached _ (node_mem i)))
  rw [hnumbered, visitOrder_eq_ok_iff]
  exact ⟨order, hnumbered, by rw [none_left, List.append_nil]⟩

/-- If there are no cycles and all nodes are reached, the flow edges of a node lead to nodes that
come after it. -/
theorem WellFormed.mem_back_of_visitOrder (wf : g.WellFormed) (acyclic : (d.flow g).Acyclic)
    (reached : ∀ v ∈ g.nodes, (d.flow g).Reachable (g.node boundary) v)
    {front back : List (Fin g.size)}
    {i j : Fin g.size} (h : g.visitOrder d boundary = .ok (front ++ i :: back))
    (edge : (d.flow g).Edge (g.node i) (g.node j)) : j ∈ back := by
  obtain ⟨order, hnumbered, -, -, nested⟩ := wf.exists_reversePostorder d boundary
  rw [wf.visitOrder_eq reached, hnumbered] at h
  have hi : g.node i ∈ (d.flow g).nodes := by simp [node_mem]
  exact (nested front i back (Except.ok.inj h) j edge).resolve_right (acyclic.not_reachable hi edge)

/-- A graph that suits a direction is visited from its boundary, where the flow enters, and each of
its nodes once: first those that information from there gets to, in reverse post-order, and after
them all that it does not get to, by number in the forward direction and by falling number in the
backward one. -/
theorem WellFormed.covers_each_once (wf : g.WellFormed) (hb : g.boundary d = .ok boundary) :
    (d.flow g).entry = .ok (g.node boundary) ∧ ∃ reached rest,
      g.visitOrder d boundary = .ok (reached ++ rest) ∧
      (reached ++ rest).Perm (List.finRange g.size) ∧
      (reached ++ rest).head? = some boundary ∧
      (d.flow g).reversePostorder (g.node boundary) = .ok (reached.map g.node) ∧
      (∀ i, i ∈ rest ↔ ¬ (d.flow g).Reachable (g.node boundary) (g.node i)) ∧
      (d = .forward → rest.Pairwise (· < ·)) ∧ (d = .backward → rest.Pairwise (· > ·)) := by
  obtain ⟨reached, hnumbered, first, hmem, -⟩ := wf.exists_reversePostorder d boundary
  have horder := visitOrder_eq_ok_iff.2 ⟨reached, hnumbered, rfl⟩
  refine ⟨(boundary_eq_ok hb).1, reached, d.others reached, horder, ?_, ?_,
    (numbered_eq_ok_iff wf.nodup).1 hnumbered, fun i => ?_, ?_, ?_⟩
  · refine (List.perm_ext_iff_of_nodup (nodup_of_visitOrder horder)
      (List.nodup_finRange _)).2 fun i => ?_
    exact iff_of_true (mem_visitOrder horder i) (List.mem_finRange i)
  · rw [List.head?_append, first, Option.some_or]
  · rw [d.mem_others, hmem]
  · rintro rfl
    exact Direction.pairwise_others_forward reached
  · rintro rfl
    exact Direction.pairwise_others_backward reached

/-- The way leads from 0 by 1 to 4, and there are two loops off it, 2 and 3, from which nothing
leads back. -/
def deadEnds : Graph Nat where
  nodes := [0, 1, 2, 3, 4]
  entry := .ok 0
  exit := .ok 4
  children
    | 0 => .ok [1, 2, 3]
    | 1 => .ok [4]
    | 2 => .ok [2]
    | 3 => .ok [3]
    | 4 => .ok []
    | _ => .error .unlisted
  parents
    | 0 => .ok []
    | 1 => .ok [0]
    | 2 => .ok [0, 2]
    | 3 => .ok [0, 3]
    | 4 => .ok [1]
    | _ => .error .unlisted

theorem covers_each_once_deadEnds :
    (deadEnds.visitOrder .backward ⟨4, by decide⟩).map (List.map deadEnds.node) =
        .ok [4, 1, 0, 3, 2] ∧
      deadEnds.inverse.reversePostorder 4 = .ok [4, 1, 0] ∧
      ¬ deadEnds.inverse.Reachable 4 3 ∧ ¬ deadEnds.inverse.Reachable 4 2 := by
  have wf : deadEnds.WellFormed := by decide
  have suits : deadEnds.boundary .backward = .ok ⟨4, by decide⟩ := by decide +kernel
  obtain ⟨-, reached, rest, horder, -, -, hreached, apart, -⟩ := wf.covers_each_once suits
  have order : (deadEnds.visitOrder .backward ⟨4, by decide⟩).map (List.map deadEnds.node) =
      .ok [4, 1, 0, 3, 2] := by decide +kernel
  have front : deadEnds.inverse.reversePostorder 4 = .ok [4, 1, 0] := by decide +kernel
  have left : rest.map deadEnds.node = [3, 2] := by
    rw [horder, Except.map, List.map_append, Except.ok.inj (hreached.symm.trans front)] at order
    have same : [4, 1, 0] ++ rest.map deadEnds.node = [4, 1, 0] ++ [3, 2] := Except.ok.inj order
    exact List.append_cancel_left same
  have away : ∀ v ∈ [3, 2], ¬ deadEnds.inverse.Reachable 4 v := by
    rw [← left]
    exact List.forall_mem_map.2 fun i hi => (apart i).1 hi
  exact ⟨order, front, away 3 (by decide), away 2 (by decide)⟩

end FlowFacts.Graph

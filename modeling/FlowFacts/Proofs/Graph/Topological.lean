import FlowFacts.Proofs.Graph.Postorder

/-!
# Post-order and cycles

The nodes on the stack of a traversal lie on one path, the lower ones before the upper ones. So when
a node is emitted, each of its children has been emitted, or is still on the stack and leads back to
it (`DepthFirst.Nested`). A post-order therefore has the children of a node before it, save for
those on a cycle with it (`Graph.Lists.nested`), and if there are no cycles (`Graph.Acyclic`), all
of them. In reverse, the start of an edge comes before its end, save for edges on cycles
(`Graph.Lists.idxOf_lt`).
-/

namespace FlowFacts

namespace DepthFirst

variable {ν : Type} {g : Graph ν} {root : ν} {emitted : List ν} {t next : DepthFirst ν}
  {e : Option ν}

/-- From a node on the stack a path leads to each one above it. From a child of an emitted node that
was not emitted before it, a path leads back to it. -/
structure Nested (g : Graph ν) (emitted : List ν) (t : DepthFirst ν) : Prop where
  stack : (t.stack.map Frame.node).Pairwise fun upper lower => g.Reachable lower upper
  children : ∀ front v back, emitted = front ++ v :: back →
    ∀ w, g.Edge v w → w ∈ front ∨ g.Reachable w v

theorem nested_start (h : start g.children root = .ok t) : Nested g [] t := by
  obtain ⟨pending, -, rfl⟩ := start_eq_ok_iff.1 h
  exact ⟨List.pairwise_singleton _ _, by simp⟩

/-- When the node on top is complete, its children have been emitted or are on the stack. -/
theorem Explored.mem_of_complete {visited : List ν} {v w : ν} {below : List (Frame ν)}
    (h : Explored g root emitted ⟨visited, ⟨v, [], true⟩ :: below⟩)
    (disciplined : Disciplined g.children emitted ⟨visited, ⟨v, [], true⟩ :: below⟩)
    (edge : g.Edge v w) : w ∈ emitted ∨ w = v ∨ w ∈ below.map Frame.node := by
  have hbelow : ∀ f ∈ below, f.reached = true := disciplined.below
  have hv : v ∈ visited := (disciplined.mem_visited_iff v).2 (by simp)
  rcases h.followed v hv w edge with (hw | ⟨f, hf, found, -⟩) | ⟨f, hf, hnode, hw⟩
  · have hw := (disciplined.mem_visited_iff w).1 hw
    rw [marked_cons, if_pos rfl, List.mem_append, List.mem_cons] at hw
    refine hw.imp_right (Or.imp_right fun hw => ?_)
    obtain ⟨f, hf, rfl⟩ := List.mem_map.1 hw
    exact List.mem_map_of_mem (List.mem_of_mem_filter hf)
  · rcases List.mem_cons.1 hf with rfl | hf
    · cases found
    · simp [hbelow f hf] at found
  -- No other frame is that of the node on top, and this one has nothing pending.
  · rcases List.mem_cons.1 hf with rfl | hf
    · cases hw
    · have twice : v ∈ marked below :=
        List.mem_map.2 ⟨f, List.mem_filter.2 ⟨hf, hbelow f hf⟩, hnode⟩
      have nodup := disciplined.nodup.of_append_right
      rw [marked_cons, if_pos rfl] at nodup
      exact absurd twice (List.nodup_cons.1 nodup).1

theorem Nested.move (h : Nested g emitted t) (disciplined : Disciplined g.children emitted t)
    (explored : Explored g root emitted t) (hm : Move g.children t e next) :
    Nested g (emitted ++ e.toList) next := by
  cases hm with
  | mark => exact ⟨h.stack, by simpa using h.children⟩
  | skip => exact ⟨h.stack, by simpa using h.children⟩
  | @emit visited v below =>
    obtain ⟨lower, hbelow⟩ := List.pairwise_cons.1 h.stack
    refine ⟨hbelow, fun front u back hemitted w edge => ?_⟩
    rcases List.eq_nil_or_concat back with rfl | ⟨back, last, rfl⟩
    · obtain ⟨rfl, hu⟩ := List.append_inj' hemitted rfl
      obtain rfl : v = u := by simpa using hu
      rcases explored.mem_of_complete disciplined edge with hw | rfl | hw
      · exact .inl hw
      · exact .inr (.refl _)
      · exact .inr (lower w hw)
    · have hemitted : emitted ++ [v] = (front ++ u :: back) ++ [last] := by simpa using hemitted
      exact h.children front u back (List.append_inj' hemitted rfl).1 w edge
  | @push visited v child grandchildren pending below =>
    obtain ⟨lower, hbelow⟩ := List.pairwise_cons.1 h.stack
    obtain ⟨-, edges⟩ := explored.stack _ List.mem_cons_self
    have edge : g.Edge v child := edges child List.mem_cons_self
    refine ⟨List.pairwise_cons.2 ⟨?_, h.stack⟩, by simpa using h.children⟩
    exact List.forall_mem_cons.2 ⟨(Graph.Reachable.refl v).snoc edge,
      fun u hu => (lower u hu).snoc edge⟩

end DepthFirst

namespace Graph

variable {ν : Type} {g : Graph ν} {root : ν}

/-- From a child that is not listed before a node, a path leads back to that node. -/
theorem Lists.nested [DecidableEq ν] {vs front back : List ν} {v w : ν} (h : g.Lists root vs)
    (hvs : vs = front ++ v :: back) (edge : g.Edge v w) : w ∈ front ∨ g.Reachable w v := by
  obtain ⟨last, -, -, -, nested⟩ := h.induction
    (I := fun emitted t => DepthFirst.Explored g root emitted t ∧ DepthFirst.Nested g emitted t)
    (fun _ hstart => ⟨DepthFirst.explored_start hstart, DepthFirst.nested_start hstart⟩)
    fun disciplined ⟨explored, nested⟩ hm => ⟨explored.move hm, nested.move disciplined explored hm⟩
  exact nested.children front v back hvs w edge

theorem idxOf_reverse_lt [DecidableEq ν] {front back : List ν} {u v : ν}
    (nodup : (front ++ u :: back).Nodup) (hv : v ∈ front) :
    (front ++ u :: back).reverse.idxOf u < (front ++ u :: back).reverse.idxOf v := by
  obtain ⟨-, hback, apart⟩ := List.nodup_append.1 nodup
  have hu : u ∉ back.reverse := mt List.mem_reverse.1 (List.nodup_cons.1 hback).1
  have hv' : v ∉ back.reverse := fun h =>
    apart v hv v (List.mem_cons_of_mem _ (List.mem_reverse.1 h)) rfl
  have ne : u ≠ v := fun same => apart v hv u List.mem_cons_self same.symm
  have hreverse : (front ++ u :: back).reverse = back.reverse ++ u :: front.reverse := by simp
  rw [hreverse, List.idxOf_append_of_notMem hu, List.idxOf_append_of_notMem hv',
    List.idxOf_cons_self, List.idxOf_cons_ne _ ne]
  omega

/-- A reverse post-order has each node before those that it has edges to, save for those that lead
back to it. -/
theorem Lists.idxOf_lt [DecidableEq ν] {vs : List ν} {u v : ν} (h : g.Lists root vs)
    (hu : g.Reachable root u) (edge : g.Edge u v) (forward : ¬ g.Reachable v u) :
    vs.reverse.idxOf u < vs.reverse.idxOf v := by
  obtain ⟨front, back, rfl⟩ := List.append_of_mem ((h.mem_iff u).2 hu)
  have hv : v ∈ front := (h.nested rfl edge).resolve_right forward
  exact idxOf_reverse_lt h.nodup_and_getLast?.1 hv

/-- Whatever graph is explored, reverse post-order has the nodes that can be reached, each once, and
the start of an edge before its end, save for edges on cycles: those from whose ends a path leads
back to their starts. Where no cycle can be reached, all edges lead on in this order. -/
theorem sources_first [DecidableEq ν] (h : g.Explorable root) :
    ∃ order, g.Lists root order.reverse ∧ (g.Covers root → g.reversePostorder root = .ok order) ∧
      order.Nodup ∧ (∀ v, v ∈ order ↔ g.Reachable root v) ∧
      (∀ u v, g.Reachable root u → g.Edge u v → ¬ g.Reachable v u → order.idxOf u < order.idxOf v) ∧
      ((∀ v passed, g.Reachable root v → g.Path v passed v → passed = []) →
        ∀ u v, g.Reachable root u → g.Edge u v → order.idxOf u < order.idxOf v) := by
  obtain ⟨vs, lists, known⟩ := h.exists_lists
  refine ⟨vs.reverse, ?_, fun covers => ?_, List.nodup_reverse.2 lists.nodup_and_getLast?.1,
    fun v => ?_,
    fun u v hu edge forward => lists.idxOf_lt hu edge forward, fun acyclic u v hu edge => ?_⟩
  · rwa [List.reverse_reverse]
  · rw [reversePostorder, known covers]
    rfl
  · rw [List.mem_reverse, lists.mem_iff]
  · refine lists.idxOf_lt hu edge ?_
    rintro ⟨passed, path⟩
    cases acyclic u _ hu (.cons edge path)

theorem sources_first_unending : unending.reversePostorder 0 = .ok [0, 2, 4, 1, 3] ∧
    [0, 2, 4, 1, 3].idxOf 2 < [0, 2, 4, 1, 3].idxOf 3 := by
  obtain ⟨order, -, known, -, -, before, -⟩ := sources_first explorable_unending
  have horder : unending.reversePostorder 0 = .ok [0, 2, 4, 1, 3] := by decide +kernel
  cases (known covers_unending).symm.trans horder
  have leads : unending.Reachable 0 2 := ⟨[0], .cons (by decide) (.nil 2)⟩
  have stays : ¬ unending.Reachable 3 2 := fun reachable => by
    have inside : 2 ∈ [1, 3] := reachable.mem_of_closed (by decide) (by decide)
    exact absurd inside (by decide)
  exact ⟨horder, before 2 3 leads (by decide) stays⟩

/-! ### No cycles -/

/-- No path leads from a node back to it, save for the one that stays there. -/
def Acyclic (g : Graph ν) : Prop := ∀ v ∈ g.nodes, ∀ passed, g.Path v passed v → passed = []

theorem Acyclic.not_reachable (acyclic : g.Acyclic) {v w : ν} (hv : v ∈ g.nodes)
    (edge : g.Edge v w) : ¬ g.Reachable w v := by
  rintro ⟨passed, path⟩
  cases acyclic v hv _ (.cons edge path)

/-- If every edge leads to a larger number, there are no cycles. -/
theorem acyclic_of_rank (wf : g.WellFormed) (rank : ν → Nat)
    (rises : ∀ v ∈ g.nodes, ∀ w ∈ g.nodes, g.Edge v w → rank v < rank w) : g.Acyclic := by
  have le : ∀ {v passed w}, g.Path v passed w → v ∈ g.nodes → rank v + passed.length ≤ rank w := by
    intro v passed w path hv
    induction path with
    | nil => exact Nat.le_refl _
    | cons edge _ ih =>
      have hw := wf.mem_of_edge hv edge
      have later := ih hw
      have := rises _ hv _ hw edge
      rw [List.length_cons]
      omega
  intro v hv passed path
  have := le path hv
  exact List.eq_nil_of_length_eq_zero (by omega)

end Graph

end FlowFacts

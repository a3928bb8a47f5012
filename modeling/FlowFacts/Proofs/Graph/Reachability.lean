import FlowFacts.Proofs.Graph.DepthFirst

/-!
# What a traversal reaches

A node can be reached from another one if a path leads there (`Graph.Reachable`). Whatever a
traversal has come upon can be reached from its root, and of whatever it has visited, every child is
visited, waits, or has just been found (`DepthFirst.Explored`). When nothing is left on the stack,
the nodes that were listed are therefore those that can be reached (`DepthFirst.Explored.mem_iff`).
-/

namespace FlowFacts

namespace Graph

variable {ν : Type} {g : Graph ν} {u v w : ν}

/-- Some path leads from one node to another. A node can be reached from itself. -/
def Reachable (g : Graph ν) (u v : ν) : Prop := ∃ passed, g.Path u passed v

theorem Reachable.refl (v : ν) : g.Reachable v v := ⟨[], .nil v⟩

theorem Reachable.snoc (h : g.Reachable u v) (edge : g.Edge v w) : g.Reachable u w := by
  obtain ⟨passed, path⟩ := h
  exact ⟨passed ++ [v], path.snoc edge⟩

/-- What holds of a node and goes over to the children of each node that it holds of holds of
whatever can be reached. -/
theorem Reachable.closed {P : ν → Prop} (h : g.Reachable u v) (start : P u)
    (step : ∀ {v w}, P v → g.Edge v w → P w) : P v := by
  obtain ⟨passed, path⟩ := h
  induction path with
  | nil => exact start
  | cons edge _ ih => exact ih (step start edge)

/-- No path leads out of a list of nodes that has all of their children. -/
theorem Reachable.mem_of_closed {vs : List ν} (h : g.Reachable u v) (hu : u ∈ vs)
    (closed : ∀ v ∈ vs, ∃ ws, g.children v = .ok ws ∧ ∀ w ∈ ws, w ∈ vs) : v ∈ vs := by
  refine h.closed hu fun {v w} hv edge => ?_
  obtain ⟨ws, hws, hmem⟩ := closed v hv
  exact hmem w ((edge_iff hws).1 edge)

theorem WellFormed.mem_of_reachable (wf : g.WellFormed) (hu : u ∈ g.nodes) (h : g.Reachable u v) :
    v ∈ g.nodes :=
  h.mem_of_closed hu wf.children

/-- With every edge turned round, a path leads back. -/
theorem WellFormed.reachable_inverse (wf : g.WellFormed) (hu : u ∈ g.nodes) (h : g.Reachable u v) :
    g.inverse.Reachable v u := by
  obtain ⟨passed, path⟩ := h
  induction path with
  | nil v => exact .refl v
  | @cons u v w passed edge _ ih =>
    have hv := wf.mem_of_edge hu edge
    exact (ih hv).snoc ((wf.edge_inverse u hu v hv).2 edge)

theorem WellFormed.reachable_inverse_iff (wf : g.WellFormed) (hu : u ∈ g.nodes) (hv : v ∈ g.nodes) :
    g.inverse.Reachable v u ↔ g.Reachable u v :=
  ⟨wf.inverse.reachable_inverse hv, wf.reachable_inverse hu⟩

end Graph

namespace DepthFirst

variable {ν : Type} {g : Graph ν} {root : ν} {emitted : List ν} {t next : DepthFirst ν}
  {e : Option ν}

/-- The traversal has come upon a node: it is marked, or it has been found and will be marked
next. -/
def Found (t : DepthFirst ν) (w : ν) : Prop :=
  w ∈ t.visited ∨ ∃ f ∈ t.stack, f.reached = false ∧ f.node = w

/-- The second node is among the children of the first one that remain to be dealt with. -/
def Waits (t : DepthFirst ν) (v w : ν) : Prop := ∃ f ∈ t.stack, f.node = v ∧ w ∈ f.pending

/-- How much of the graph a traversal from a root has dealt with. -/
structure Explored (g : Graph ν) (root : ν) (emitted : List ν) (t : DepthFirst ν) : Prop where
  begun : Found t root
  listed : ∀ v ∈ emitted, g.Reachable root v
  stack : ∀ f ∈ t.stack, g.Reachable root f.node ∧ ∀ w ∈ f.pending, g.Edge f.node w
  followed : ∀ v ∈ t.visited, ∀ w, g.Edge v w → Found t w ∨ Waits t v w

theorem explored_start (h : start g.children root = .ok t) : Explored g root [] t := by
  obtain ⟨pending, hpending, rfl⟩ := start_eq_ok_iff.1 h
  refine ⟨.inr ⟨_, List.mem_cons_self, rfl, rfl⟩, by simp, ?_, by simp⟩
  intro f hf
  obtain rfl := List.mem_singleton.1 hf
  exact ⟨.refl root, fun w hw => ⟨pending, hpending, hw⟩⟩

variable {children : ν → Except LookupError (List ν)} {v w : ν}

theorem Found.move (h : Found t w) (hm : Move children t e next) : Found next w := by
  rcases h with marked | ⟨f, hf, unmarked, rfl⟩
  · cases hm with
    | mark => exact .inl (List.mem_cons_of_mem _ marked)
    | emit | skip | push => exact .inl marked
  · cases hm with
    | mark =>
      rcases List.mem_cons.1 hf with rfl | hf
      · exact .inl List.mem_cons_self
      · exact .inr ⟨f, List.mem_cons_of_mem _ hf, unmarked, rfl⟩
    | emit =>
      rcases List.mem_cons.1 hf with rfl | hf
      · cases unmarked
      · exact .inr ⟨f, hf, unmarked, rfl⟩
    | skip =>
      rcases List.mem_cons.1 hf with rfl | hf
      · cases unmarked
      · exact .inr ⟨f, List.mem_cons_of_mem _ hf, unmarked, rfl⟩
    | push =>
      rcases List.mem_cons.1 hf with rfl | hf
      · cases unmarked
      · exact .inr ⟨f, List.mem_cons_of_mem _ (List.mem_cons_of_mem _ hf), unmarked, rfl⟩

/-- A child that no longer waits has been found. -/
theorem Waits.move (h : Waits t v w) (hm : Move children t e next) :
    Found next w ∨ Waits next v w := by
  obtain ⟨f, hf, rfl, hw⟩ := h
  cases hm with
  | mark =>
    rcases List.mem_cons.1 hf with rfl | hf
    · exact .inr ⟨_, List.mem_cons_self, rfl, hw⟩
    · exact .inr ⟨f, List.mem_cons_of_mem _ hf, rfl, hw⟩
  | emit =>
    rcases List.mem_cons.1 hf with rfl | hf
    · cases hw
    · exact .inr ⟨f, hf, rfl, hw⟩
  | skip marked =>
    rcases List.mem_cons.1 hf with rfl | hf
    · rcases List.mem_cons.1 hw with rfl | hw
      · exact .inl (.inl marked)
      · exact .inr ⟨_, List.mem_cons_self, rfl, hw⟩
    · exact .inr ⟨f, List.mem_cons_of_mem _ hf, rfl, hw⟩
  | push =>
    rcases List.mem_cons.1 hf with rfl | hf
    · rcases List.mem_cons.1 hw with rfl | hw
      · exact .inl (.inr ⟨_, List.mem_cons_self, rfl, rfl⟩)
      · exact .inr ⟨_, List.mem_cons_of_mem _ List.mem_cons_self, rfl, hw⟩
    · exact .inr ⟨f, List.mem_cons_of_mem _ (List.mem_cons_of_mem _ hf), rfl, hw⟩

theorem Explored.move (h : Explored g root emitted t) (hm : Move g.children t e next) :
    Explored g root (emitted ++ e.toList) next := by
  have begun : Found next root := h.begun.move hm
  have followed : ∀ u ∈ t.visited, ∀ w, g.Edge u w → Found next w ∨ Waits next u w := by
    intro u hu w edge
    rcases h.followed u hu w edge with found | waits
    · exact .inl (found.move hm)
    · exact waits.move hm
  cases hm with
  | @mark visited v pending below new hpending =>
    -- The children of the node that is marked now wait in its frame.
    refine ⟨begun, by simpa using h.listed, by simpa using h.stack, fun u hu w edge => ?_⟩
    rcases List.mem_cons.1 hu with rfl | hu
    · exact .inr ⟨_, List.mem_cons_self, rfl, (Graph.edge_iff hpending).1 edge⟩
    · exact followed u hu w edge
  | @emit visited v below =>
    obtain ⟨⟨reachable, -⟩, hbelow⟩ := List.forall_mem_cons.1 h.stack
    refine ⟨begun, fun u hu => ?_, hbelow, followed⟩
    rcases List.mem_append.1 hu with hu | hu
    · exact h.listed u hu
    · obtain rfl : u = v := by simpa using hu
      exact reachable
  | @skip visited v child pending below =>
    obtain ⟨⟨reachable, edges⟩, hbelow⟩ := List.forall_mem_cons.1 h.stack
    obtain ⟨-, edges⟩ := List.forall_mem_cons.1 edges
    refine ⟨begun, by simpa using h.listed, ?_, followed⟩
    exact List.forall_mem_cons.2 ⟨⟨reachable, edges⟩, hbelow⟩
  | @push visited v child grandchildren pending below hchild hgrandchildren =>
    obtain ⟨⟨reachable, edges⟩, hbelow⟩ := List.forall_mem_cons.1 h.stack
    obtain ⟨edge, edges⟩ := List.forall_mem_cons.1 edges
    refine ⟨begun, by simpa using h.listed, ?_, followed⟩
    exact List.forall_mem_cons.2 ⟨⟨reachable.snoc edge, fun w hw => ⟨_, hgrandchildren, hw⟩⟩,
      List.forall_mem_cons.2 ⟨⟨reachable, edges⟩, hbelow⟩⟩

/-- A traversal with nothing left on its stack has listed what can be reached from its root. -/
theorem Explored.mem_iff (h : Explored g root emitted t)
    (disciplined : Disciplined g.children emitted t)
    (done : t.stack = []) (v : ν) : v ∈ emitted ↔ g.Reachable root v := by
  have visited : ∀ v, v ∈ t.visited ↔ v ∈ emitted := by
    simpa [done, marked] using disciplined.mem_visited_iff
  have start : root ∈ emitted := by simpa [Found, done, visited] using h.begun
  have closed : ∀ v ∈ emitted, ∀ w, g.Edge v w → w ∈ emitted := by
    simpa [Found, Waits, done, visited] using h.followed
  exact ⟨h.listed v, fun reachable => reachable.closed start fun hv edge => closed _ hv _ edge⟩

end DepthFirst

end FlowFacts

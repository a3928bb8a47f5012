import FlowFacts.Proofs.Graph.Topological

/-!
# The stack of a traversal

In each state that a traversal comes through, the nodes on its stack are distinct, with an edge from
each to the one above it; the visited nodes are those that have been handed out and the marked ones
on the stack; and no child of a visited node has been forgotten (`DepthFirst.Stacked`). So when the
traversal turns to a node that it has only found, this node is not visited yet: it is always marked,
and never dropped (`Graph.stacked_of_comesThrough`).
-/

namespace FlowFacts

namespace DepthFirst

variable {ν : Type} {g : Graph ν} {children : ν → Except LookupError (List ν)} {root : ν}
  {emitted : List ν} {t next : DepthFirst ν} {e : Option ν}

theorem marked_eq {stack : List (Frame ν)} (h : ∀ f ∈ stack, f.reached = true) :
    marked stack = stack.map Frame.node := by
  rw [marked, List.filter_eq_self.2 h]

/-- An entry that is not marked is on top. -/
theorem Disciplined.exists_below (h : Disciplined children emitted t) {f : Frame ν}
    (hf : f ∈ t.stack) (unmarked : f.reached = false) : ∃ below, t.stack = f :: below := by
  obtain ⟨top, below, hstack⟩ := List.exists_cons_of_ne_nil (List.ne_nil_of_mem hf)
  rw [hstack] at hf
  rcases List.mem_cons.1 hf with rfl | hf
  · exact ⟨below, hstack⟩
  · have marked := h.below f (by rwa [hstack])
    rw [unmarked] at marked
    cases marked

/-- The nodes on the stack are distinct, the one that is not marked included. -/
theorem Disciplined.nodup_stack (h : Disciplined children emitted t) :
    (t.stack.map Frame.node).Nodup := by
  obtain ⟨visited, stack⟩ := t
  match stack with
  | [] => exact List.nodup_nil
  | ⟨v, pending, reached⟩ :: below =>
    have hbelow : marked below = below.map Frame.node := marked_eq h.below
    have nodup := h.nodup.of_append_right
    cases reached with
    | true => simpa [hbelow] using nodup
    | false =>
      have new : v ∉ visited := (h.found _ List.mem_cons_self rfl).1
      have fresh : v ∉ marked below := fun hv =>
        new ((h.mem_visited_iff v).2 (List.mem_append_right _ (by simpa using hv)))
      rw [hbelow] at fresh
      exact List.nodup_cons.2 ⟨fresh, by simpa [hbelow] using nodup⟩

/-- An edge leads from each node on the stack to the one above it. -/
def Linked (g : Graph ν) (t : DepthFirst ν) : Prop :=
  (t.stack.map Frame.node).IsChain fun upper lower => g.Edge lower upper

theorem linked_start (h : start g.children root = .ok t) : Linked g t := by
  obtain ⟨pending, -, rfl⟩ := start_eq_ok_iff.1 h
  exact List.isChain_singleton _

theorem Linked.move (h : Linked g t) (explored : Explored g root emitted t)
    (hm : Move g.children t e next) : Linked g next := by
  cases hm with
  | mark => exact h
  | emit => exact List.IsChain.tail h
  | skip => exact h
  | @push visited v child grandchildren pending below =>
    -- The child waited in the frame that it is put on.
    obtain ⟨-, edges⟩ := explored.stack _ List.mem_cons_self
    exact List.isChain_cons_cons.2 ⟨edges child List.mem_cons_self, h⟩

/-- The children of each node that has been handed out are visited. -/
def Handled (g : Graph ν) (emitted : List ν) (t : DepthFirst ν) : Prop :=
  ∀ v ∈ emitted, ∀ w, g.Edge v w → w ∈ t.visited

theorem Handled.move (h : Handled g emitted t) (disciplined : Disciplined g.children emitted t)
    (explored : Explored g root emitted t) (hm : Move g.children t e next) :
    Handled g (emitted ++ e.toList) next := by
  cases hm with
  | mark => exact fun u hu w edge => List.mem_cons_of_mem _ (h u (by simpa using hu) w edge)
  | skip => simpa [Handled] using h
  | push => simpa [Handled] using h
  | @emit visited v below =>
    intro u hu w edge
    rcases List.mem_append.1 hu with hu | hu
    · exact h u hu w edge
    · obtain rfl : u = v := by simpa using hu
      -- Its children have been handed out or are on the stack, where all nodes are marked now.
      have known := explored.mem_of_complete disciplined edge
      have hbelow : marked below = below.map Frame.node := marked_eq disciplined.below
      rw [← hbelow] at known
      exact (disciplined.mem_visited_iff w).2 (by simpa using known)

/-- What holds of a traversal that has handed out some nodes. -/
structure Stacked (g : Graph ν) (emitted : List ν) (t : DepthFirst ν) : Prop where
  distinct : (t.stack.map Frame.node).Nodup
  linked : Linked g t
  /-- Only the node on top can be one that is not marked, and then it is not visited. -/
  below : ∀ f ∈ t.stack.tail, f.reached = true
  found : ∀ f ∈ t.stack, f.reached = false → f.node ∉ t.visited
  /-- The visited nodes are those handed out and the marked ones on the stack. No node is both. -/
  apart : (emitted ++ marked t.stack).Nodup
  mem_visited_iff : ∀ v, v ∈ t.visited ↔ v ∈ emitted ∨ v ∈ marked t.stack
  /-- A child of a marked node is visited, or it waits there, or it has been found and is on top. -/
  children : ∀ f ∈ t.stack, f.reached = true → ∀ w, g.Edge f.node w →
    w ∈ t.visited ∨ w ∈ f.pending ∨ ∃ pending below, t.stack = ⟨w, pending, false⟩ :: below
  handled : Handled g emitted t

/-- No other entry of the stack is for the same node, so what waits for the node waits in its
entry. -/
theorem Waits.mem_pending (distinct : (t.stack.map Frame.node).Nodup) {f : Frame ν}
    (hf : f ∈ t.stack) {w : ν} (h : Waits t f.node w) : w ∈ f.pending := by
  obtain ⟨f', hf', same, hw⟩ := h
  rwa [List.inj_on_of_nodup_map distinct hf' hf same] at hw

theorem Disciplined.stacked (h : Disciplined g.children emitted t)
    (explored : Explored g root emitted t)
    (linked : Linked g t) (handled : Handled g emitted t) : Stacked g emitted t where
  distinct := h.nodup_stack
  linked := linked
  below := h.below
  found f hf unmarked := (h.found f hf unmarked).1
  apart := h.nodup
  mem_visited_iff v := (h.mem_visited_iff v).trans List.mem_append
  handled := handled
  children f hf reached w edge := by
    have hv : f.node ∈ t.visited := (h.mem_visited_iff _).2
      (List.mem_append_right _ (List.mem_map_of_mem (List.mem_filter.2 ⟨hf, reached⟩)))
    rcases explored.followed _ hv w edge with (hw | ⟨⟨w, pending, _⟩, htop, rfl, rfl⟩) | waits
    · exact .inl hw
    · exact .inr (.inr ⟨pending, h.exists_below htop rfl⟩)
    · exact .inr (.inl (waits.mem_pending h.nodup_stack hf))

end DepthFirst

namespace Graph

open DepthFirst

variable {ν : Type} [DecidableEq ν] {g : Graph ν} {root : ν} {emitted : List ν} {t : DepthFirst ν}

/-- However a graph is connected, in each state that a traversal comes through, the nodes on its
stack are distinct, each a child of the one below it, and all but the one on top are marked. The
visited nodes are those handed out, all of whose children are visited, and the marked ones on the
stack, whose children are visited, or wait in the entry of the node, or are on top and not marked
yet. A node on top that is not marked is marked next: it is never dropped. -/
theorem stacked_of_comesThrough (h : ComesThrough g.children root emitted t) :
    Stacked g emitted t ∧ ∀ v pending below, t.stack = ⟨v, pending, false⟩ :: below →
      step g.children t = .ok (.moved ⟨v :: t.visited, ⟨v, pending, true⟩ :: below⟩) := by
  have disciplined := h.disciplined
  obtain ⟨explored, linked, handled⟩ := h.invariant
    (I := fun emitted t => Explored g root emitted t ∧ Linked g t ∧ Handled g emitted t)
    (fun _ hstart => ⟨explored_start hstart, linked_start hstart, nofun⟩)
    fun disciplined ⟨explored, linked, handled⟩ hm =>
      ⟨explored.move hm, linked.move explored hm, handled.move disciplined explored hm⟩
  refine ⟨disciplined.stacked explored linked handled, fun v pending below hstack => ?_⟩
  obtain ⟨visited, stack⟩ := t
  obtain rfl : stack = ⟨v, pending, false⟩ :: below := hstack
  exact if_neg (disciplined.found _ List.mem_cons_self rfl).1

/-- The traversal of `unending` that has handed out two nodes and has just found another one. -/
def foundTwo : DepthFirst Nat := ⟨[3, 1, 0], [⟨2, [3, 4], false⟩, ⟨0, [1], true⟩]⟩

theorem stacked_unending :
    ComesThrough unending.children 0 [3, 1] foundTwo ∧ Stacked unending [3, 1] foundTwo ∧
    step unending.children foundTwo =
      .ok (.moved ⟨[2, 3, 1, 0], [⟨2, [3, 4], true⟩, ⟨0, [1], true⟩]⟩) := by
  have start : ComesThrough unending.children 0 [] ⟨[], [⟨0, [1, 2, 1], false⟩]⟩ := .start rfl
  have first : next unending.children 8 ⟨[], [⟨0, [1, 2, 1], false⟩]⟩ =
    .ok (some 3, ⟨[3, 1, 0], [⟨1, [], true⟩, ⟨0, [2, 1], true⟩]⟩) := rfl
  have second : next unending.children 8 ⟨[3, 1, 0], [⟨1, [], true⟩, ⟨0, [2, 1], true⟩]⟩ =
    .ok (some 1, ⟨[3, 1, 0], [⟨0, [2, 1], true⟩]⟩) := rfl
  have comes : ComesThrough unending.children 0 [3, 1] foundTwo :=
    ((start.of_next first).of_next second).moved rfl
  obtain ⟨stacked, marks⟩ := stacked_of_comesThrough comes
  exact ⟨comes, stacked, marks 2 _ _ rfl⟩

end Graph

end FlowFacts

import Mathlib.Data.List.Nodup
import FlowFacts.Proofs.Equations.Checking
import FlowFacts.Proofs.Graph.Postorder

/-!
# Graphs and their numbered equations

On a graph that lists each node once, numbering its nodes loses nothing: nodes and numbers
correspond (`Graph.number_node`), lists of nodes have the numbers that map back to them
(`Graph.numbered_eq_ok_iff`), and the facts of a solution are those of a store
(`Analysis.storeOf_eq_ok_iff`). The order of visits is reverse post-order with the numbers that are
missing in it at the end (`Graph.visitOrder_eq_ok_iff`). The equations over a well-formed graph have
no gap at an edge and know each edge from both ends (`Analysis.wired_equations`).
-/

namespace FlowFacts

theorem Direction.place_injective {F : Type} (d : Direction) :
    Function.Injective (d.place : Sides F → NodeFacts F) :=
  Function.LeftInverse.injective d.orient_place

/-! ### The numbers that are missing in a list -/

namespace Direction

variable {n : Nat} {reached : List (Fin n)}

theorem mem_others (d : Direction) {i : Fin n} : i ∈ d.others reached ↔ i ∉ reached := by
  unfold others
  split <;> simp

theorem pairwise_others_forward (reached : List (Fin n)) :
    (forward.others reached).Pairwise (· < ·) :=
  (List.pairwise_lt_finRange n).filter _

theorem pairwise_others_backward (reached : List (Fin n)) :
    (backward.others reached).Pairwise (· > ·) :=
  List.pairwise_reverse.2 ((List.pairwise_lt_finRange n).filter _)

theorem nodup_others (d : Direction) (reached : List (Fin n)) : (d.others reached).Nodup := by
  cases d with
  | forward => exact (pairwise_others_forward reached).imp ne_of_lt
  | backward => exact (pairwise_others_backward reached).imp ne_of_gt

theorem others_eq_nil (d : Direction) (nodup : reached.Nodup) (complete : n ≤ reached.length) :
    d.others reached = [] := by
  refine List.eq_nil_iff_forall_not_mem.2 fun i hi => ?_
  have longer := (List.nodup_cons.2 ⟨d.mem_others.1 hi, nodup⟩).length_le_card
  rw [List.length_cons, Fintype.card_fin] at longer
  omega

end Direction

namespace Graph

variable {ν : Type} {g : Graph ν}

theorem node_injective (nodup : g.nodes.Nodup) : Function.Injective g.node :=
  List.nodup_iff_injective_get.1 nodup

theorem node_mem (i : Fin g.size) : g.node i ∈ g.nodes := List.get_mem g.nodes i

theorem exists_node {v : ν} (h : v ∈ g.nodes) : ∃ i, g.node i = v := List.mem_iff_get.1 h

theorem forall_node {p : ν → Prop} : (∀ v ∈ g.nodes, p v) ↔ ∀ i, p (g.node i) :=
  List.forall_mem_iff_get

theorem exists_numbers {vs : List ν} (h : ∀ v ∈ vs, v ∈ g.nodes) :
    ∃ is : List (Fin g.size), is.map g.node = vs := by
  induction vs with
  | nil => exact ⟨[], rfl⟩
  | cons v vs ih =>
    obtain ⟨i, rfl⟩ := exists_node (h v List.mem_cons_self)
    obtain ⟨is, rfl⟩ := ih fun w hw => h w (List.mem_cons_of_mem _ hw)
    exact ⟨i :: is, rfl⟩

variable [DecidableEq ν]

theorem number_node (nodup : g.nodes.Nodup) (i : Fin g.size) : g.number (g.node i) = .ok i := by
  unfold number
  split
  next j hj => exact congrArg _ (node_injective nodup (get_of_lastIndex? hj))
  next hnone => exact absurd (node_mem i) (lastIndex?_eq_none_iff.1 hnone)

theorem map_node_of_numbers {vs : List ν} {is : List (Fin g.size)} (h : g.numbers vs = .ok is) :
    is.map g.node = vs := by
  unfold numbers at h
  induction vs generalizing is with
  | nil =>
    cases h
    rfl
  | cons v vs ih =>
    rw [List.mapM_cons] at h
    obtain ⟨i, hi, h⟩ := bind_eq_ok_iff.1 h
    obtain ⟨rest, hrest, h⟩ := bind_eq_ok_iff.1 h
    cases h
    rw [List.map_cons, node_of_number hi, ih hrest]

theorem numbers_eq_ok_iff (nodup : g.nodes.Nodup) {vs : List ν} {is : List (Fin g.size)} :
    g.numbers vs = .ok is ↔ is.map g.node = vs := by
  refine ⟨map_node_of_numbers, fun h => ?_⟩
  subst h
  unfold numbers
  induction is with
  | nil => rfl
  | cons i rest ih =>
    rw [List.map_cons, List.mapM_cons, number_node nodup, ih]
    rfl

theorem numbered_eq_ok_iff (nodup : g.nodes.Nodup) {answer : Except LookupError (List ν)}
    {is : List (Fin g.size)} : g.numbered answer = .ok is ↔ answer = .ok (is.map g.node) := by
  unfold numbered
  cases answer with
  | error e => simp [Except.bind]
  | ok vs =>
    change g.numbers vs = .ok is ↔ _
    rw [numbers_eq_ok_iff nodup, Except.ok.injEq, eq_comm]

/-- Reverse post-order has no number twice. -/
theorem nodup_of_numbered {d : Direction} {root : ν} {reached : List (Fin g.size)}
    (h : g.numbered ((d.flow g).reversePostorder root) = .ok reached) : reached.Nodup := by
  cases hvs : (d.flow g).reversePostorder root with
  | error e =>
    rw [hvs] at h
    cases h
  | ok vs =>
    rw [hvs] at h
    obtain ⟨post, hpost, rfl⟩ := map_eq_ok_iff.1 hvs
    have nodup := (lists_of_postorderWithin hpost).nodup_and_getLast?.1
    exact .of_map g.node (map_node_of_numbers h ▸ List.nodup_reverse.2 nodup)

/-- There are others only if some are missing, so it does no harm not to look for them otherwise. -/
theorem visitOrder_eq_ok_iff {d : Direction} {boundary : Fin g.size} {order : List (Fin g.size)} :
    g.visitOrder d boundary = .ok order ↔
      ∃ reached, g.numbered ((d.flow g).reversePostorder (g.node boundary)) = .ok reached ∧
        reached ++ d.others reached = order := by
  unfold visitOrder
  rw [map_eq_ok_iff]
  refine exists_congr fun reached => and_congr_right fun h => ?_
  split
  next => rfl
  next complete =>
    rw [d.others_eq_nil (nodup_of_numbered h) (Nat.le_of_not_lt complete), List.append_nil]

theorem mem_visitOrder {d : Direction} {boundary : Fin g.size} {order : List (Fin g.size)}
    (h : g.visitOrder d boundary = .ok order) (i : Fin g.size) : i ∈ order := by
  obtain ⟨reached, -, rfl⟩ := visitOrder_eq_ok_iff.1 h
  rw [List.mem_append, Direction.mem_others]
  exact Decidable.em (i ∈ reached)

/-- A graph that suits an analysis has a boundary, which no information flows into. -/
theorem boundary_eq_ok {d : Direction} {boundary : Fin g.size}
    (h : g.boundary d = .ok boundary) :
    (d.flow g).entry = .ok (g.node boundary) ∧ (d.flow g).parents (g.node boundary) = .ok [] := by
  unfold Graph.boundary at h
  split at h
  next => cases h
  next =>
    obtain ⟨v, hentry, h⟩ := bind_eq_ok_iff.1 h
    split at h
    next => cases h
    next =>
      obtain ⟨entry, -, h⟩ := bind_eq_ok_iff.1 h
      obtain ⟨reached, -, h⟩ := bind_eq_ok_iff.1 h
      split at h
      next => cases h
      next =>
        obtain ⟨sources, hsources, h⟩ := bind_eq_ok_iff.1 h
        split at h
        next => cases h
        next hempty =>
          have hv : g.node boundary = v := node_of_number (mapError_eq_ok_iff.1 h)
          obtain rfl : sources = [] := by simpa using hempty
          exact hv ▸ ⟨mapError_eq_ok_iff.1 hentry, mapError_eq_ok_iff.1 hsources⟩

end Graph

namespace Analysis

variable {ν F : Type} [DecidableEq ν] {a : Analysis ν F} {g : Graph ν} {boundary : Fin g.size}

theorem sources_equations (i : Fin g.size) :
    (a.equations g boundary).sources i =
      g.numbered ((a.direction.flow g).parents (g.node i)) := by
  exact Vector.getElem_ofFn i.isLt

theorem dependents_equations (i : Fin g.size) :
    (a.equations g boundary).dependents i =
      g.numbered ((a.direction.flow g).children (g.node i)) := by
  exact Vector.getElem_ofFn i.isLt

theorem sources_equations_iff (nodup : g.nodes.Nodup) {i : Fin g.size}
    {sources : List (Fin g.size)} :
    (a.equations g boundary).sources i = .ok sources ↔
      (a.direction.flow g).parents (g.node i) = .ok (sources.map g.node) := by
  rw [sources_equations, Graph.numbered_eq_ok_iff nodup]

theorem exists_sources (a : Analysis ν F) (boundary : Fin g.size) (wf : g.WellFormed)
    (i : Fin g.size) :
    ∃ sources, (a.equations g boundary).sources i = .ok sources ∧
      (a.direction.flow g).parents (g.node i) = .ok (sources.map g.node) := by
  obtain ⟨us, hus, hmem⟩ := (wf.flow a.direction).parents (g.node i) (by simp [Graph.node_mem])
  obtain ⟨sources, rfl⟩ := Graph.exists_numbers (g := g) fun u hu => by simpa using hmem u hu
  exact ⟨sources, (sources_equations_iff wf.nodup).2 hus, hus⟩

theorem wired_equations (wf : g.WellFormed) : (a.equations g boundary).Wired where
  covers h := Graph.mem_visitOrder h
  linked {i j sources dependents} hs hd hi := by
    rw [sources_equations_iff wf.nodup] at hs
    rw [dependents_equations, Graph.numbered_eq_ok_iff wf.nodup] at hd
    have back : (a.direction.flow g).inverse.Edge (g.node j) (g.node i) :=
      ⟨_, hs, List.mem_map_of_mem hi⟩
    have forth := ((wf.flow a.direction).edge_inverse (g.node i) (by simp [Graph.node_mem])
      (g.node j) (by simp [Graph.node_mem])).1 back
    obtain ⟨k, hk, hnode⟩ := List.mem_map.1 ((Graph.edge_iff hd).1 forth)
    exact Graph.node_injective wf.nodup hnode ▸ hk

/-! ### Facts by node and by number -/

private theorem lookup_of_mem {entries : List (ν × F)} (keys : (entries.map Prod.fst).Nodup)
    {v : ν} {x : F} (h : (v, x) ∈ entries) : entries.lookup v = some x := by
  obtain ⟨front, back, rfl⟩ := List.append_of_mem h
  refine List.lookup_eq_some_iff.2 ⟨front, back, rfl, fun p hp => ?_⟩
  rw [List.map_append, List.map_cons] at keys
  have apart : p.1 ≠ v := List.nodup_append.1 keys |>.2.2 p.1 (List.mem_map_of_mem hp) v
    List.mem_cons_self
  simpa using Ne.symm apart

theorem facts?_factsOf (nodup : g.nodes.Nodup) {d : Direction} {store : Store g.size F}
    {stats : Stats} (i : Fin g.size) :
    Solution.facts? ⟨g.factsOf d store, stats⟩ (g.node i) = some (d.place (store.get i)) := by
  have keys : ((g.factsOf d store).reverse.map Prod.fst).Nodup := by
    rw [List.map_reverse, List.nodup_reverse, Graph.factsOf, List.map_map]
    exact (List.nodup_finRange g.size).map (Graph.node_injective nodup)
  apply lookup_of_mem keys
  rw [List.mem_reverse]
  exact List.mem_map_of_mem (List.mem_finRange i)

theorem storeOf_eq_ok_iff {s : Solution ν F} {store : Store g.size F} :
    a.storeOf g s = .ok store ↔
      ∀ i, s.facts? (g.node i) = some (a.direction.place (store.get i)) := by
  rw [storeOf, tabulate_eq_ok_iff]
  refine forall_congr' fun i => ?_
  cases s.facts? (g.node i) with
  | none => simp
  | some facts =>
    simp only [Except.ok.injEq, Option.some.injEq]
    exact ⟨fun h => h ▸ (a.direction.place_orient facts).symm,
      fun h => h ▸ a.direction.orient_place _⟩

theorem storeOf_factsOf (nodup : g.nodes.Nodup) (store : Store g.size F) (stats : Stats) :
    a.storeOf g ⟨g.factsOf a.direction store, stats⟩ = .ok store :=
  storeOf_eq_ok_iff.2 (facts?_factsOf nodup)

/-! ### Runs -/

variable [LE F] [DecidableLE F] [DecidableEq F]

/-- A run with a result solved the equations, and the result has the facts that this ended with. -/
theorem solve_eq_ok {settings : Settings} {s : Solution ν F}
    (h : (a.solve settings g).outcome = .ok s) :
    ∃ boundary last tally, g.boundary a.direction = .ok boundary ∧
      (a.equations g boundary).solve settings = (last, .ok tally) ∧
      s = ⟨g.factsOf a.direction last.store, ⟨tally, settings.strategy⟩⟩ := by
  unfold solve equations? at h
  cases hb : g.boundary a.direction with
  | error cause => simp [hb, Except.map] at h
  | ok boundary =>
    simp only [hb, Except.map] at h
    cases hrun : (a.equations g boundary).solve settings with
    | mk last outcome =>
      cases outcome with
      | error stop => simp [hrun] at h
      | ok tally =>
        simp only [hrun, Except.ok.injEq] at h
        exact ⟨boundary, last, tally, rfl, hrun, h.symm⟩

/-- What becomes of given facts is up to the equations, once the graph suits the analysis and there
are facts for all nodes. -/
theorem outcome_verify {s : Solution ν F} {boundary : Fin g.size} {store : Store g.size F}
    (hb : g.boundary a.direction = .ok boundary) (hs : a.storeOf g s = .ok store) :
    (a.verify g s).outcome =
      match ((a.equations g boundary).check store).2 with
      | some stop => .error (a.failure (g.causeOf a.direction stop))
      | none => .ok () := by
  simp only [verify, equations?, hb, hs, Except.map]
  cases ((a.equations g boundary).check store).2 <;> rfl

theorem verify_eq_ok_iff_check {s : Solution ν F} {boundary : Fin g.size} {store : Store g.size F}
    (hb : g.boundary a.direction = .ok boundary) (hs : a.storeOf g s = .ok store) :
    (a.verify g s).outcome = .ok () ↔ ((a.equations g boundary).check store).2 = none := by
  rw [outcome_verify hb hs]
  split <;> simp [*]

theorem verify_eq_ok {s : Solution ν F} (h : (a.verify g s).outcome = .ok ()) :
    ∃ boundary store, g.boundary a.direction = .ok boundary ∧ a.storeOf g s = .ok store ∧
      ((a.equations g boundary).check store).2 = none := by
  cases hb : g.boundary a.direction with
  | error cause => simp [verify, equations?, hb, Except.map] at h
  | ok boundary =>
    cases hs : a.storeOf g s with
    | error cause => simp [verify, equations?, hb, hs, Except.map] at h
    | ok store =>
      rw [outcome_verify hb hs] at h
      cases hc : ((a.equations g boundary).check store).2 with
      | some stop => simp [hc] at h
      | none => exact ⟨boundary, store, rfl, rfl, hc⟩

end Analysis

end FlowFacts

import Mathlib.Data.List.Defs
import Mathlib.Data.List.Nodup
import Mathlib.Data.List.Perm.Subperm
import Mathlib.Order.ConditionallyCompleteLattice.Basic
import Mathlib.Order.Lattice.Nat
import FlowFacts.Proofs.Graph.Edges

/-!
# Simple paths and their tolls

A simple path comes to no node twice (`Graph.SimplePath`). Every path contains one with the same
ends (`Graph.Path.exists_simple`), and turned round it is a path of the inverse
(`Graph.WellFormed.exists_reverse`). Where some edges are costly, a path has a toll, the number of
these edges on it (`Graph.toll`). Edges that go back in some order of the nodes, or stay where they
are, are costly in `Graph.retreats`. On a well-formed graph there is a simple path with the most of
them (`Graph.WellFormed.exists_isGreatest_retreatCounts`).
-/

namespace FlowFacts.Graph

variable {ν : Type} {g : Graph ν} {u v w : ν} {passed : List ν}

/-! ### Simple paths -/

/-- A path that comes to no node twice. -/
structure SimplePath (g : Graph ν) (u : ν) (passed : List ν) (v : ν) : Prop where
  path : g.Path u passed v
  nodup : (passed ++ [v]).Nodup

/-- From any of its nodes on, the rest of a path is a path. -/
theorem Path.exists_rest (path : g.Path u passed v) (hw : w ∈ passed ++ [v]) :
    ∃ rest, g.Path w rest v ∧ rest <:+ passed := by
  induction path with
  | nil v =>
    obtain rfl : w = v := by simpa using hw
    exact ⟨[], .nil w, List.suffix_rfl⟩
  | @cons u _ v passed edge path ih =>
    rcases List.mem_cons.1 hw with rfl | hw
    · exact ⟨w :: passed, .cons edge path, List.suffix_rfl⟩
    · obtain ⟨rest, hrest, suffix⟩ := ih hw
      exact ⟨rest, hrest, suffix.trans (List.suffix_cons u passed)⟩

theorem Path.exists_tail (path : g.Path u passed v) : ∃ tail, passed ++ [v] = u :: tail := by
  cases path with
  | nil => exact ⟨[], rfl⟩
  | cons _ _ => exact ⟨_, rfl⟩

/-- A path that comes back to a node can leave out the way round. -/
theorem Path.exists_simple (path : g.Path u passed v) :
    ∃ passed', g.SimplePath u passed' v ∧ passed' ⊆ passed := by
  induction path with
  | nil v => exact ⟨[], ⟨.nil v, List.nodup_singleton v⟩, List.Subset.refl []⟩
  | @cons u _ v passed edge _ ih =>
    obtain ⟨short, ⟨path, nodup⟩, subset⟩ := ih
    by_cases again : u ∈ short ++ [v]
    · obtain ⟨rest, hrest, suffix⟩ := path.exists_rest again
      refine ⟨rest, ⟨hrest, nodup.sublist (suffix.sublist.append_right [v])⟩, fun w hw => ?_⟩
      exact List.mem_cons_of_mem u (subset (suffix.subset hw))
    · exact ⟨u :: short, ⟨.cons edge path, List.nodup_cons.2 ⟨again, nodup⟩⟩,
        List.cons_subset_cons u subset⟩

namespace WellFormed

theorem mem_of_path (wf : g.WellFormed) (hu : u ∈ g.nodes) (path : g.Path u passed v) :
    ∀ w ∈ passed ++ [v], w ∈ g.nodes := by
  induction path with
  | nil v => simpa using hu
  | cons edge _ ih => exact List.forall_mem_cons.2 ⟨hu, ih (wf.mem_of_edge hu edge)⟩

theorem length_lt_of_simplePath (wf : g.WellFormed) (hu : u ∈ g.nodes)
    (simple : g.SimplePath u passed v) : passed.length < g.nodes.length := by
  have short : (passed ++ [v]).length ≤ g.nodes.length :=
    (simple.nodup.subperm fun w => wf.mem_of_path hu simple.path w).length_le
  rw [List.length_append, List.length_singleton] at short
  exact short

/-- The inverse has the path in reverse. -/
theorem exists_reverse (wf : g.WellFormed) (hu : u ∈ g.nodes) (path : g.Path u passed v) :
    ∃ back, g.inverse.Path v back u ∧ back ++ [u] = (passed ++ [v]).reverse := by
  induction path with
  | nil v => exact ⟨[], .nil v, rfl⟩
  | @cons u w v passed edge _ ih =>
    have hw := wf.mem_of_edge hu edge
    obtain ⟨back, hback, nodes⟩ := ih hw
    refine ⟨back ++ [w], hback.snoc ((wf.edge_inverse u hu w hw).2 edge), ?_⟩
    rw [nodes, List.cons_append, List.reverse_cons]

theorem exists_reverse_simple (wf : g.WellFormed) (hu : u ∈ g.nodes)
    (simple : g.SimplePath u passed v) :
    ∃ back, g.inverse.SimplePath v back u ∧ back ++ [u] = (passed ++ [v]).reverse := by
  obtain ⟨back, hback, nodes⟩ := wf.exists_reverse hu simple.path
  exact ⟨back, ⟨hback, nodes ▸ List.nodup_reverse.2 simple.nodup⟩, nodes⟩

end WellFormed

/-! ### Tolls -/

/-- The number of costly steps from each node of a list to the next one. -/
def toll (costly : ν → ν → Bool) (nodes : List ν) : Nat :=
  nodes.consecutivePairs.countP fun step => costly step.1 step.2

variable {costly : ν → ν → Bool}

@[simp] theorem toll_singleton (v : ν) : toll costly [v] = 0 := rfl

theorem toll_cons_cons (u v : ν) (nodes : List ν) :
    toll costly (u :: v :: nodes) = toll costly (v :: nodes) + if costly u v then 1 else 0 :=
  List.countP_cons

theorem toll_concat (nodes : List ν) (u v : ν) :
    toll costly (nodes ++ [u, v]) = toll costly (nodes ++ [u]) + if costly u v then 1 else 0 := by
  induction nodes with
  | nil => rw [List.nil_append, List.nil_append, toll_cons_cons]; rfl
  | cons w nodes ih =>
    cases nodes with
    | nil =>
      simp only [List.cons_append, List.nil_append, toll_cons_cons, toll_singleton]
      omega
    | cons x nodes =>
      simp only [List.cons_append, toll_cons_cons] at ih ⊢
      omega

theorem toll_le (costly : ν → ν → Bool) (passed : List ν) (v : ν) :
    toll costly (passed ++ [v]) ≤ passed.length := by
  refine List.countP_le_length.trans_eq ?_
  rw [List.consecutivePairs, List.length_zip, List.length_tail, List.length_append,
    List.length_singleton]
  omega

/-! ### Retreats -/

variable [DecidableEq ν]

/-- The second node does not come after the first one in an order. -/
def retreating (order : List ν) (u v : ν) : Bool := decide (order.idxOf v ≤ order.idxOf u)

/-- A step to a node that does go forward comes from in front of it. -/
theorem mem_of_not_retreating {order front back : List ν} (horder : order = front ++ v :: back)
    (h : retreating order u v = false) : u ∈ front := by
  have earlier : order.idxOf u < order.idxOf v := Nat.lt_of_not_le (of_decide_eq_false h)
  by_contra behind
  rw [horder, List.idxOf_append, if_neg behind, List.idxOf_append] at earlier
  split at earlier
  next hv =>
    have := List.idxOf_lt_length_of_mem hv
    omega
  next =>
    rw [List.idxOf_cons_self] at earlier
    omega

/-- The number of steps in a list of nodes that do not go forward in an order. -/
def retreats (order nodes : List ν) : Nat := toll (retreating order) nodes

/-- How often the simple paths of a graph retreat. -/
def retreatCounts (g : Graph ν) (order : List ν) : Set Nat :=
  {count | ∃ u ∈ g.nodes, ∃ passed v, g.SimplePath u passed v ∧
    retreats order (passed ++ [v]) = count}

theorem WellFormed.exists_isGreatest_retreatCounts (wf : g.WellFormed) (nonempty : g.nodes ≠ [])
    (order : List ν) : ∃ d, IsGreatest (g.retreatCounts order) d ∧ d < g.nodes.length := by
  have bounded : ∀ count ∈ g.retreatCounts order, count < g.nodes.length := by
    rintro _ ⟨u, hu, passed, v, simple, rfl⟩
    exact (toll_le _ passed v).trans_lt (wf.length_lt_of_simplePath hu simple)
  have some : (g.retreatCounts order).Nonempty := by
    obtain ⟨v, hv⟩ := List.exists_mem_of_ne_nil _ nonempty
    exact ⟨_, v, hv, [], v, ⟨.nil v, List.nodup_singleton v⟩, rfl⟩
  have above : BddAbove (g.retreatCounts order) := ⟨_, fun count h => (bounded count h).le⟩
  have greatest : IsGreatest (g.retreatCounts order) (sSup (g.retreatCounts order)) :=
    ⟨Nat.sSup_mem some above, fun _ h => le_csSup above h⟩
  exact ⟨_, greatest, bounded _ greatest.1⟩

end FlowFacts.Graph

import Mathlib.Data.Fintype.Pigeonhole
import Mathlib.Data.Set.Finite.List
import Mathlib.Dynamics.PeriodicPts.Defs
import FlowFacts.Proofs.Graph.Edges

/-!
# Cycles

Where every node of some kind has an edge to another node of that kind, there is a cycle of such
nodes (`Graph.exists_cycle`): a graph lists finitely many nodes, so whoever goes on from node to
node comes back at some time.
-/

namespace FlowFacts.Graph

variable {ν : Type} {g : Graph ν}

/-- A closed path through at least two nodes, each passed once. -/
structure Cycle (g : Graph ν) (nodes : List ν) : Prop where
  closed : ∃ v, g.Path v nodes v
  nodup : nodes.Nodup
  two_le : 2 ≤ nodes.length

section

variable {α : Type} {next : α → α}

/-- The steps of a function along edges are a path. -/
theorem path_iterate (place : α → ν) (edge : ∀ a, g.Edge (place a) (place (next a))) (a : α)
    (k : Nat) : g.Path (place a) ((List.range k).map fun i => place (next^[i] a))
      (place (next^[k] a)) := by
  induction k with
  | zero => exact .nil (place a)
  | succ k ih =>
    rw [List.range_succ, List.map_append, Function.iterate_succ_apply']
    exact ih.snoc (edge _)

/-- Whoever goes on among finitely many places comes back. -/
theorem exists_mem_periodicPts [Finite α] (next : α → α) (a : α) :
    ∃ b, b ∈ Function.periodicPts next := by
  obtain ⟨m, n, apart, same⟩ := Finite.exists_ne_map_eq_of_infinite fun k => next^[k] a
  wlog earlier : m < n generalizing m n
  · exact this n m apart.symm same.symm (by omega)
  refine ⟨next^[m] a, Function.mk_mem_periodicPts (Nat.sub_pos_of_lt earlier) ?_⟩
  rw [Function.IsPeriodicPt, Function.IsFixedPt, ← Function.iterate_add_apply]
  rw [Nat.sub_add_cancel earlier.le]
  exact same.symm

end

theorem exists_cycle {p : ν → Prop} (listed : ∀ v, p v → v ∈ g.nodes)
    (goesOn : ∀ v, p v → ∃ w, p w ∧ w ≠ v ∧ g.Edge v w) {v : ν} (hv : p v) :
    ∃ nodes, g.Cycle nodes ∧ ∀ w ∈ nodes, p w := by
  have finite : Finite {v // p v} := ((List.finite_toSet g.nodes).subset listed).to_subtype
  have step : ∀ v : {v // p v}, ∃ w : {v // p v}, w ≠ v ∧ g.Edge v.1 w.1 := by
    intro v
    obtain ⟨w, hw, apart, edge⟩ := goesOn v.1 v.2
    exact ⟨⟨w, hw⟩, fun same => apart (congrArg Subtype.val same), edge⟩
  choose next apart edge using step
  obtain ⟨a, periodic⟩ := exists_mem_periodicPts next ⟨v, hv⟩
  refine ⟨(List.range (Function.minimalPeriod next a)).map fun k => (next^[k] a).1,
    ⟨⟨a.1, ?_⟩, ?_, ?_⟩, ?_⟩
  · have path := path_iterate Subtype.val edge a (Function.minimalPeriod next a)
    rwa [Function.iterate_minimalPeriod] at path
  · refine List.nodup_range.map_on fun i hi j hj same => ?_
    rw [List.mem_range] at hi hj
    exact (Function.iterate_eq_iterate_iff_of_lt_minimalPeriod hi hj).1 (Subtype.ext same)
  · rw [List.length_map, List.length_range]
    have pos := Function.minimalPeriod_pos_of_mem_periodicPts periodic
    have ne_one : Function.minimalPeriod next a ≠ 1 :=
      mt Function.minimalPeriod_eq_one_iff_isFixedPt.1 (apart a)
    omega
  · intro w hw
    obtain ⟨k, -, rfl⟩ := List.mem_map.1 hw
    exact (next^[k] a).2

end FlowFacts.Graph

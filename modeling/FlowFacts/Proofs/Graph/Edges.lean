import FlowFacts.Dataflow.Direction

/-!
# Edges and paths

The edges of a graph as a relation, the paths along them, and well-formed graphs: those that list
each node once, have answers for their own nodes that stay among these, and know each edge from both
of its ends. Parallel edges and edges from a node to itself are allowed. A graph is anchored if it
has its entry and its exit among its nodes, unless there are none.
-/

namespace FlowFacts

section

variable {ε ε' α β : Type}

/-- Whether an answer has a property can be told by looking at it. -/
instance decidableExistsOk {p : α → Prop} [DecidablePred p] :
    (answer : Except ε α) → Decidable (∃ a, answer = .ok a ∧ p a)
  | .ok a => decidable_of_iff (p a) (by simp)
  | .error _ => isFalse (by simp)

theorem bind_eq_ok_iff {x : Except ε α} {f : α → Except ε β} {b : β} :
    x >>= f = .ok b ↔ ∃ a, x = .ok a ∧ f a = .ok b := by
  cases x <;> simp [bind, Except.bind]

theorem map_eq_ok_iff {x : Except ε α} {f : α → β} {b : β} :
    x.map f = .ok b ↔ ∃ a, x = .ok a ∧ f a = b := by
  cases x <;> simp [Except.map]

theorem exists_eq_ok {x : Except ε α} (h : x.isOk = true) : ∃ a, x = .ok a := by
  cases x with
  | error e => cases h
  | ok a => exact ⟨a, rfl⟩

theorem mapError_eq_ok_iff {x : Except ε α} {f : ε → ε'} {a : α} :
    x.mapError f = .ok a ↔ x = .ok a := by
  cases x with
  | error e => exact ⟨nofun, nofun⟩
  | ok b =>
    constructor
    · rintro ⟨⟩
      rfl
    · rintro ⟨⟩
      rfl

end

namespace Graph

variable {ν : Type} {g : Graph ν} {u v w : ν}

/-- There is an edge from one node to another. -/
def Edge (g : Graph ν) (u v : ν) : Prop := ∃ vs, g.children u = .ok vs ∧ v ∈ vs

theorem edge_iff {vs : List ν} (h : g.children u = .ok vs) : g.Edge u v ↔ v ∈ vs := by
  constructor
  · rintro ⟨vs', h', hv⟩
    cases h.symm.trans h'
    exact hv
  · exact fun hv => ⟨vs, h, hv⟩

instance [DecidableEq ν] : Decidable (g.Edge u v) :=
  inferInstanceAs (Decidable (∃ vs, g.children u = .ok vs ∧ v ∈ vs))

/-- A path from the first node to the last one. The list has the nodes that it leaves, in order: all
of its nodes but the last. -/
inductive Path (g : Graph ν) : ν → List ν → ν → Prop
  | nil (v : ν) : Path g v [] v
  | cons {u v w passed} : g.Edge u v → Path g v passed w → Path g u (u :: passed) w

theorem Path.snoc {passed : List ν} (path : g.Path u passed v) (edge : g.Edge v w) :
    g.Path u (passed ++ [v]) w := by
  induction path with
  | nil => exact .cons edge (.nil w)
  | cons first _ ih => exact .cons first (ih edge)

/-- A graph whose lists of nodes, children and parents fit together. -/
structure WellFormed (g : Graph ν) : Prop where
  nodup : g.nodes.Nodup
  children : ∀ v ∈ g.nodes, ∃ ws, g.children v = .ok ws ∧ ∀ w ∈ ws, w ∈ g.nodes
  parents : ∀ v ∈ g.nodes, ∃ us, g.parents v = .ok us ∧ ∀ u ∈ us, u ∈ g.nodes
  edge_inverse : ∀ u ∈ g.nodes, ∀ v ∈ g.nodes, g.inverse.Edge v u ↔ g.Edge u v

instance [DecidableEq ν] : Decidable g.WellFormed :=
  decidable_of_iff
    (g.nodes.Nodup ∧ (∀ v ∈ g.nodes, ∃ ws, g.children v = .ok ws ∧ ∀ w ∈ ws, w ∈ g.nodes) ∧
      (∀ v ∈ g.nodes, ∃ us, g.parents v = .ok us ∧ ∀ u ∈ us, u ∈ g.nodes) ∧
      ∀ u ∈ g.nodes, ∀ v ∈ g.nodes, g.inverse.Edge v u ↔ g.Edge u v)
    ⟨fun ⟨nodup, children, parents, edge_inverse⟩ => ⟨nodup, children, parents, edge_inverse⟩,
      fun ⟨nodup, children, parents, edge_inverse⟩ => ⟨nodup, children, parents, edge_inverse⟩⟩

namespace WellFormed

theorem inverse (wf : g.WellFormed) : g.inverse.WellFormed where
  nodup := wf.nodup
  children := wf.parents
  parents := wf.children
  edge_inverse u hu v hv := (wf.edge_inverse v hv u hu).symm

theorem flow (wf : g.WellFormed) (d : Direction) : (d.flow g).WellFormed := by
  cases d with
  | forward => exact wf
  | backward => exact wf.inverse

theorem mem_of_edge (wf : g.WellFormed) (hu : u ∈ g.nodes) (h : g.Edge u v) : v ∈ g.nodes := by
  obtain ⟨vs, hvs, hmem⟩ := wf.children u hu
  exact hmem v ((edge_iff hvs).1 h)

end WellFormed

@[simp] theorem nodes_flow (d : Direction) (g : Graph ν) : (d.flow g).nodes = g.nodes := by
  cases d <;> rfl

/-- Entry and exit are among the nodes, and if there are any nodes, there are both. -/
structure Anchored (g : Graph ν) : Prop where
  entry_mem : ∀ u, g.entry = .ok u → u ∈ g.nodes
  exit_mem : ∀ v, g.exit = .ok v → v ∈ g.nodes
  entry : g.nodes ≠ [] → ∃ u, g.entry = .ok u
  exit : g.nodes ≠ [] → ∃ v, g.exit = .ok v

namespace Anchored

theorem inverse (anchored : g.Anchored) : g.inverse.Anchored where
  entry_mem := anchored.exit_mem
  exit_mem := anchored.entry_mem
  entry := anchored.exit
  exit := anchored.entry

theorem flow (anchored : g.Anchored) (d : Direction) : (d.flow g).Anchored := by
  cases d with
  | forward => exact anchored
  | backward => exact anchored.inverse

end Anchored

end Graph

end FlowFacts

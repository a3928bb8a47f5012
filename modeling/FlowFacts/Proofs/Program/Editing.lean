import Mathlib.Data.List.Nodup
import FlowFacts.Program.ControlGraph
import FlowFacts.Proofs.Graph.Edges

/-!
# Editing control-flow graphs

An `Edit` is what can be done to a control-flow graph, with any nodes as its arguments, also such
that the graph does not have. A control-flow graph whose edges are known at both of their ends is
well-formed (`ControlGraph.Mirrored.wellFormed`), and one that has what is designated in it has its
entry and exit among its nodes (`ControlGraph.Designated.anchored`).
-/

namespace FlowFacts

/-- A way of changing a control-flow graph. -/
inductive Edit (σ : Type) where
  | push (s : σ)
  | connect (a b : NodeId)
  | connectChain (vs : List NodeId)
  | setEntry (v : NodeId)
  | setExit (v : NodeId)

namespace ControlGraph

variable {σ : Type} {g : ControlGraph σ} {a b u v : NodeId}

/-- The graph after an edit. -/
def edit (g : ControlGraph σ) : Edit σ → ControlGraph σ
  | .push s => (g.push s).1
  | .connect a b => (g.connect a b).1
  | .connectChain vs => g.connectChain vs
  | .setEntry v => (g.setEntry v).1
  | .setExit v => (g.setExit v).1

/-- The graph that edits make of the empty graph. -/
def ofEdits (edits : List (Edit σ)) : ControlGraph σ := edits.foldl edit ∅

/-! ### Blocks -/

theorem block_eq_ok_iff {block : Block σ} :
    g.block v = .ok block ↔ g.blocks[v.index]? = some block := by
  unfold ControlGraph.block
  cases g.blocks[v.index]? <;> simp

theorem mem_nodes_iff_block : v ∈ g.nodes ↔ ∃ block, g.block v = .ok block := by
  simp only [block_eq_ok_iff, Array.getElem?_eq_some_iff]
  rw [mem_nodes, size]
  constructor
  · intro bound
    exact ⟨_, bound, rfl⟩
  · rintro ⟨_, bound, -⟩
    exact bound

theorem block_push_eq_ok_iff {s : σ} {block : Block σ} :
    (g.push s).1.block v = .ok block ↔
      v = ⟨g.size⟩ ∧ block = ⟨s, [], []⟩ ∨ g.block v = .ok block := by
  obtain ⟨index⟩ := v
  rw [block_eq_ok_iff, block_eq_ok_iff, push, Array.getElem?_push, NodeId.mk.injEq]
  split
  next new =>
    have outside : g.blocks[index]? = none := Array.getElem?_eq_none (Nat.le_of_eq new.symm)
    rw [outside]
    simp [show index = g.size from new, eq_comm]
  next old => simp [show ¬ index = g.size from old]

/-- An edge that is put in is known at both of its ends, also when these are the same node. -/
theorem block_link (g : ControlGraph σ) (a b v : NodeId) :
    (g.link a b).block v = (g.block v).map fun block =>
      { block with
        successors := block.successors ++ if v = a then [b] else []
        predecessors := block.predecessors ++ if v = b then [a] else [] } := by
  obtain ⟨a⟩ := a
  obtain ⟨b⟩ := b
  obtain ⟨v⟩ := v
  simp only [block, size_link]
  simp only [link, Array.getElem?_modify, NodeId.mk.injEq, eq_comm (a := v)]
  cases g.blocks[v]? with
  | none => simp [Except.map]
  | some block => by_cases ha : a = v <;> by_cases hb : b = v <;> simp [ha, hb, Except.map]

theorem nodes_push (g : ControlGraph σ) (s : σ) : (g.push s).1.nodes = g.nodes ++ [⟨g.size⟩] := by
  rw [nodes, nodes, size_push, List.range_succ, List.map_append]
  rfl

theorem nodes_link (g : ControlGraph σ) (a b : NodeId) : (g.link a b).nodes = g.nodes := by
  rw [nodes, nodes, size_link]

theorem size_toGraph (g : ControlGraph σ) : g.toGraph.size = g.size :=
  (List.length_map _).trans List.length_range

/-! ### Edges -/

theorem edge_iff_block :
    g.toGraph.Edge u v ↔ ∃ block, g.block u = .ok block ∧ v ∈ block.successors := by
  change (∃ vs, (g.block u).map Block.successors = .ok vs ∧ v ∈ vs) ↔ _
  cases g.block u <;> simp [Except.map]

theorem edge_inverse_iff_block :
    g.toGraph.inverse.Edge v u ↔ ∃ block, g.block v = .ok block ∧ u ∈ block.predecessors := by
  change (∃ us, (g.block v).map Block.predecessors = .ok us ∧ u ∈ us) ↔ _
  cases g.block v <;> simp [Except.map]

theorem accepts_iff : g.accepts a b = true ↔ a ∈ g.nodes ∧ b ∈ g.nodes ∧ ¬ g.toGraph.Edge a b := by
  rw [edge_iff_block, mem_nodes_iff_block, mem_nodes, accepts, contains]
  cases g.block a <;> simp

theorem connect_eq_true_iff : (g.connect a b).2 = true ↔ g.accepts a b = true := by
  rw [connect]
  split <;> simp [*]

theorem connect_of_refused (refused : (g.connect a b).2 = false) : (g.connect a b).1 = g := by
  rw [connect] at *
  split at * <;> simp_all

/-- Each edge is known at both of its ends. -/
def Mirrored (g : ControlGraph σ) : Prop :=
  ∀ u v, g.toGraph.inverse.Edge v u ↔ g.toGraph.Edge u v

theorem Mirrored.wellFormed (h : g.Mirrored) : g.toGraph.WellFormed where
  nodup := by
    refine List.nodup_range.map ?_
    intro _ _
    exact congrArg NodeId.index
  children v hv := by
    obtain ⟨block, hblock⟩ := mem_nodes_iff_block.1 hv
    refine ⟨block.successors, congrArg (Except.map Block.successors) hblock, fun w hw => ?_⟩
    have edge : g.toGraph.Edge v w := edge_iff_block.2 ⟨block, hblock, hw⟩
    obtain ⟨_, hw, -⟩ := edge_inverse_iff_block.1 ((h v w).2 edge)
    exact mem_nodes_iff_block.2 ⟨_, hw⟩
  parents v hv := by
    obtain ⟨block, hblock⟩ := mem_nodes_iff_block.1 hv
    refine ⟨block.predecessors, congrArg (Except.map Block.predecessors) hblock, fun u hu => ?_⟩
    have edge : g.toGraph.inverse.Edge v u := edge_inverse_iff_block.2 ⟨block, hblock, hu⟩
    obtain ⟨_, hu, -⟩ := edge_iff_block.1 ((h u v).1 edge)
    exact mem_nodes_iff_block.2 ⟨_, hu⟩
  edge_inverse u _ v _ := h u v

/-! ### Entry and exit -/

theorem contains_iff : g.contains v = true ↔ v ∈ g.nodes := by
  rw [contains, decide_eq_true_iff, mem_nodes]

theorem setEntry_eq_true_iff : (g.setEntry v).2 = true ↔ v ∈ g.nodes := by
  rw [setEntry, ← contains_iff]
  split <;> simp [*]

theorem setEntry_of_refused (refused : (g.setEntry v).2 = false) : (g.setEntry v).1 = g := by
  rw [setEntry] at *
  split at * <;> simp_all

theorem setExit_eq_true_iff : (g.setExit v).2 = true ↔ v ∈ g.nodes := by
  rw [setExit, ← contains_iff]
  split <;> simp [*]

theorem setExit_of_refused (refused : (g.setExit v).2 = false) : (g.setExit v).1 = g := by
  rw [setExit] at *
  split at * <;> simp_all

theorem entry_eq_ok_iff : g.entry = .ok u ↔ g.entry?.or g.nodes.head? = some u := by
  unfold ControlGraph.entry
  split <;> simp [*]

theorem exit_eq_ok_iff : g.exit = .ok v ↔ g.exit?.or g.nodes.getLast? = some v := by
  unfold ControlGraph.exit
  split <;> simp [*]

/-- What is designated as entry or exit is a node. -/
structure Designated (g : ControlGraph σ) : Prop where
  entry : ∀ v, g.entry? = some v → v ∈ g.nodes
  exit : ∀ v, g.exit? = some v → v ∈ g.nodes

theorem Designated.anchored (h : g.Designated) : g.toGraph.Anchored := by
  refine ⟨fun u hu => ?_, fun v hv => ?_, fun nonempty => ?_, fun nonempty => ?_⟩
  · rcases Option.or_eq_some_iff.1 (entry_eq_ok_iff.1 hu) with designated | ⟨-, first⟩
    · exact h.entry u designated
    · exact List.mem_of_head? first
  · rcases Option.or_eq_some_iff.1 (exit_eq_ok_iff.1 hv) with designated | ⟨-, last⟩
    · exact h.exit v designated
    · exact List.mem_of_getLast? last
  · have first : g.nodes.head?.isSome := List.isSome_head?.2 nonempty
    refine (Option.isSome_iff_exists.1 ?_).imp fun u => entry_eq_ok_iff.2
    rw [Option.isSome_or, first, Bool.or_true]
  · have last : g.nodes.getLast?.isSome := List.getLast?_isSome.2 nonempty
    refine (Option.isSome_iff_exists.1 ?_).imp fun v => exit_eq_ok_iff.2
    rw [Option.isSome_or, last, Bool.or_true]

end ControlGraph

end FlowFacts

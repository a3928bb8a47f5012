import Mathlib.Data.List.Defs
import FlowFacts.Proofs.Program.Editing

/-!
# Control-flow graphs and their histories

A `History` is a control-flow graph together with what it has answered to the edits so far: the
nodes that it made, and the edges, entries and exits that it accepted, each in order. Whatever is
done to the graph, all of it can be read off these answers (`History.Kept`, `History.kept_ofEdits`):
the edges at a node are those that were accepted, in the order of acceptance, and an edge is
accepted if its ends exist and it has not been accepted before. So whatever is done to the empty
graph, the result is well-formed (`ControlGraph.wellFormed_ofEdits`) and has its entry and exit
among its nodes (`ControlGraph.anchored_ofEdits`).
-/

namespace FlowFacts

/-- A control-flow graph, and what it has answered to edits so far. -/
structure History (σ : Type) where
  graph : ControlGraph σ
  /-- The nodes that were made. -/
  made : List NodeId
  /-- The edges that were accepted. -/
  edges : List (NodeId × NodeId)
  /-- The nodes that were accepted as entry. -/
  entries : List NodeId
  /-- The nodes that were accepted as exit. -/
  exits : List NodeId

namespace History

variable {σ : Type} {h : History σ} {a b u v : NodeId}

def empty : History σ := ⟨∅, [], [], [], []⟩

/-- Ask for an edge. -/
def connect (h : History σ) (a b : NodeId) : History σ :=
  { h with
    graph := (h.graph.connect a b).1
    edges := if (h.graph.connect a b).2 then h.edges ++ [(a, b)] else h.edges }

/-- Make an edit. The edges of a chain are asked for one by one. -/
def edit (h : History σ) : Edit σ → History σ
  | .push s => { h with graph := (h.graph.push s).1, made := h.made ++ [(h.graph.push s).2] }
  | .connect a b => h.connect a b
  | .connectChain vs => vs.consecutivePairs.foldl (fun h e => h.connect e.1 e.2) h
  | .setEntry v =>
    { h with
      graph := (h.graph.setEntry v).1
      entries := if (h.graph.setEntry v).2 then h.entries ++ [v] else h.entries }
  | .setExit v =>
    { h with
      graph := (h.graph.setExit v).1
      exits := if (h.graph.setExit v).2 then h.exits ++ [v] else h.exits }

/-- The history of edits to the empty graph. -/
def ofEdits (edits : List (Edit σ)) : History σ := edits.foldl edit empty

/-- The ends of the accepted edges from a node. -/
def targets (h : History σ) (v : NodeId) : List NodeId :=
  (h.edges.filter fun e => e.1 = v).map Prod.snd

/-- The starts of the accepted edges to a node. -/
def sources (h : History σ) (v : NodeId) : List NodeId :=
  (h.edges.filter fun e => e.2 = v).map Prod.fst

theorem mem_targets : b ∈ h.targets a ↔ (a, b) ∈ h.edges := by
  simp [targets]

theorem mem_sources : a ∈ h.sources b ↔ (a, b) ∈ h.edges := by
  simp [sources]

theorem nodup_targets (nodup : h.edges.Nodup) (v : NodeId) : (h.targets v).Nodup := by
  refine (nodup.filter _).map_on fun e he e' he' same => Prod.ext ?_ same
  exact (of_decide_eq_true (List.mem_filter.1 he).2).trans
    (of_decide_eq_true (List.mem_filter.1 he').2).symm

theorem nodup_sources (nodup : h.edges.Nodup) (v : NodeId) : (h.sources v).Nodup := by
  refine (nodup.filter _).map_on fun e he e' he' same => Prod.ext same ?_
  exact (of_decide_eq_true (List.mem_filter.1 he).2).trans
    (of_decide_eq_true (List.mem_filter.1 he').2).symm

theorem connect_of_accepted (accepted : h.graph.accepts a b = true) :
    h.connect a b = { h with graph := h.graph.link a b, edges := h.edges ++ [(a, b)] } := by
  simp [connect, ControlGraph.connect, accepted]

theorem connect_of_refused (refused : h.graph.accepts a b = false) : h.connect a b = h := by
  simp [connect, ControlGraph.connect, refused]

theorem targets_accepted (g : ControlGraph σ) :
    { h with graph := g, edges := h.edges ++ [(a, b)] }.targets v =
      h.targets v ++ if v = a then [b] else [] := by
  by_cases same : v = a <;> simp [targets, same, eq_comm]

theorem sources_accepted (g : ControlGraph σ) :
    { h with graph := g, edges := h.edges ++ [(a, b)] }.sources v =
      h.sources v ++ if v = b then [a] else [] := by
  by_cases same : v = b <;> simp [sources, same, eq_comm]

/-! ### The graph of a history -/

theorem graph_connectChain (h : History σ) (vs : List NodeId) :
    (h.edit (.connectChain vs)).graph = h.graph.connectChain vs := by
  induction vs generalizing h with
  | nil => rfl
  | cons a rest ih =>
    cases rest with
    | nil => rfl
    | cons b rest => exact ih (h.connect a b)

theorem graph_edit (h : History σ) (e : Edit σ) : (h.edit e).graph = h.graph.edit e := by
  cases e with
  | push | connect | setEntry | setExit => rfl
  | connectChain vs => exact graph_connectChain h vs

theorem graph_ofEdits (edits : List (Edit σ)) :
    (ofEdits edits).graph = ControlGraph.ofEdits edits := by
  suffices ∀ h : History σ,
      (edits.foldl edit h).graph = edits.foldl ControlGraph.edit h.graph from this empty
  induction edits with
  | nil => exact fun _ => rfl
  | cons e rest ih =>
    intro h
    rw [List.foldl_cons, List.foldl_cons, ih, graph_edit]

/-! ### What the history says of the graph -/

/-- The history of a graph tells what its nodes are, what is at each of them, and which are its
entry and exit. -/
structure Kept (h : History σ) : Prop where
  nodes : h.graph.nodes = h.made
  nodup : h.edges.Nodup
  ends : ∀ e ∈ h.edges, e.1 ∈ h.graph.nodes ∧ e.2 ∈ h.graph.nodes
  blocks : ∀ v block, h.graph.block v = .ok block →
    block.successors = h.targets v ∧ block.predecessors = h.sources v
  entry : h.graph.entry? = h.entries.getLast?
  exit : h.graph.exit? = h.exits.getLast?
  entries : ∀ v ∈ h.entries, v ∈ h.graph.nodes
  exits : ∀ v ∈ h.exits, v ∈ h.graph.nodes

theorem kept_empty : (empty : History σ).Kept where
  nodes := rfl
  nodup := List.nodup_nil
  ends := nofun
  blocks _ block hblock :=
    absurd (ControlGraph.mem_nodes_iff_block.2 ⟨block, hblock⟩) List.not_mem_nil
  entry := rfl
  exit := rfl
  entries := nofun
  exits := nofun

namespace Kept

theorem edge_iff (kept : h.Kept) : h.graph.toGraph.Edge a b ↔ (a, b) ∈ h.edges := by
  rw [ControlGraph.edge_iff_block, ← mem_targets]
  constructor
  · rintro ⟨block, hblock, hb⟩
    exact (kept.blocks a block hblock).1 ▸ hb
  · intro hb
    obtain ⟨block, hblock⟩ := ControlGraph.mem_nodes_iff_block.1 (kept.ends _ (mem_targets.1 hb)).1
    exact ⟨block, hblock, (kept.blocks a block hblock).1 ▸ hb⟩

theorem edge_inverse_iff (kept : h.Kept) : h.graph.toGraph.inverse.Edge b a ↔ (a, b) ∈ h.edges := by
  rw [ControlGraph.edge_inverse_iff_block, ← mem_sources]
  constructor
  · rintro ⟨block, hblock, ha⟩
    exact (kept.blocks b block hblock).2 ▸ ha
  · intro ha
    obtain ⟨block, hblock⟩ := ControlGraph.mem_nodes_iff_block.1 (kept.ends _ (mem_sources.1 ha)).2
    exact ⟨block, hblock, (kept.blocks b block hblock).2 ▸ ha⟩

theorem accepts_iff (kept : h.Kept) :
    h.graph.accepts a b = true ↔ a ∈ h.graph.nodes ∧ b ∈ h.graph.nodes ∧ (a, b) ∉ h.edges := by
  rw [ControlGraph.accepts_iff, kept.edge_iff]

theorem successors_eq (kept : h.Kept) (hv : v ∈ h.graph.nodes) :
    h.graph.successors v = .ok (h.targets v) := by
  obtain ⟨block, hblock⟩ := ControlGraph.mem_nodes_iff_block.1 hv
  exact map_eq_ok_iff.2 ⟨block, hblock, (kept.blocks v block hblock).1⟩

theorem predecessors_eq (kept : h.Kept) (hv : v ∈ h.graph.nodes) :
    h.graph.predecessors v = .ok (h.sources v) := by
  obtain ⟨block, hblock⟩ := ControlGraph.mem_nodes_iff_block.1 hv
  exact map_eq_ok_iff.2 ⟨block, hblock, (kept.blocks v block hblock).2⟩

theorem entry_eq_ok_iff (kept : h.Kept) :
    h.graph.entry = .ok u ↔ h.entries.getLast?.or h.made.head? = some u := by
  rw [ControlGraph.entry_eq_ok_iff, kept.entry, kept.nodes]

theorem exit_eq_ok_iff (kept : h.Kept) :
    h.graph.exit = .ok u ↔ h.exits.getLast?.or h.made.getLast? = some u := by
  rw [ControlGraph.exit_eq_ok_iff, kept.exit, kept.nodes]

theorem push (kept : h.Kept) (s : σ) : (h.edit (.push s)).Kept := by
  have nodes : (h.edit (.push s)).graph.nodes = h.graph.nodes ++ [⟨h.graph.size⟩] :=
    h.graph.nodes_push s
  have remain : ∀ v ∈ h.graph.nodes, v ∈ (h.edit (.push s)).graph.nodes := fun v hv =>
    nodes ▸ List.mem_append_left _ hv
  refine ⟨nodes.trans (congrArg (· ++ [_]) kept.nodes), kept.nodup, fun e he => ?_,
    fun v block hblock => ?_, kept.entry, kept.exit, fun v hv => remain v (kept.entries v hv),
    fun v hv => remain v (kept.exits v hv)⟩
  · exact (kept.ends e he).imp (remain _) (remain _)
  · rcases ControlGraph.block_push_eq_ok_iff.1 hblock with ⟨rfl, rfl⟩ | old
    -- No edge was accepted at a node that did not exist.
    · have outside : (⟨h.graph.size⟩ : NodeId) ∉ h.graph.nodes := fun hv =>
        Nat.lt_irrefl _ (ControlGraph.mem_nodes.1 hv)
      refine ⟨(List.eq_nil_iff_forall_not_mem.2 fun w hw => ?_).symm,
        (List.eq_nil_iff_forall_not_mem.2 fun w hw => ?_).symm⟩
      · exact outside (kept.ends _ (mem_targets.1 hw)).1
      · exact outside (kept.ends _ (mem_sources.1 hw)).2
    · exact kept.blocks v block old

theorem connect (kept : h.Kept) (a b : NodeId) : (h.connect a b).Kept := by
  cases accepted : h.graph.accepts a b with
  | false =>
    rw [connect_of_refused accepted]
    exact kept
  | true =>
    obtain ⟨ha, hb, new⟩ := kept.accepts_iff.1 accepted
    have nodes : (h.graph.link a b).nodes = h.graph.nodes := ControlGraph.nodes_link ..
    rw [connect_of_accepted accepted]
    refine ⟨nodes.trans kept.nodes, ?_, fun e he => ?_, fun v block hblock => ?_,
      kept.entry, kept.exit,
      fun v hv => nodes ▸ kept.entries v hv, fun v hv => nodes ▸ kept.exits v hv⟩
    · exact List.nodup_append.2 ⟨kept.nodup, List.nodup_singleton _, fun e he e' he' same =>
        new (List.mem_singleton.1 he' ▸ same ▸ he)⟩
    · rw [nodes]
      rcases List.mem_append.1 he with old | last
      · exact kept.ends e old
      · obtain rfl := List.mem_singleton.1 last
        exact ⟨ha, hb⟩
    · rw [ControlGraph.block_link] at hblock
      obtain ⟨old, hold, rfl⟩ := map_eq_ok_iff.1 hblock
      obtain ⟨successors, predecessors⟩ := kept.blocks v old hold
      rw [targets_accepted, sources_accepted, ← successors, ← predecessors]
      exact ⟨rfl, rfl⟩

theorem setEntry (kept : h.Kept) (v : NodeId) : (h.edit (.setEntry v)).Kept := by
  cases has : h.graph.contains v with
  | false => simpa [History.edit, ControlGraph.setEntry, has] using kept
  | true =>
    have hv : v ∈ h.graph.nodes := ControlGraph.contains_iff.1 has
    simp only [History.edit, ControlGraph.setEntry, has, if_pos]
    exact { kept with
      entry := List.getLast?_concat.symm
      entries := List.forall_mem_append.2 ⟨kept.entries, List.forall_mem_singleton.2 hv⟩ }

theorem setExit (kept : h.Kept) (v : NodeId) : (h.edit (.setExit v)).Kept := by
  cases has : h.graph.contains v with
  | false => simpa [History.edit, ControlGraph.setExit, has] using kept
  | true =>
    have hv : v ∈ h.graph.nodes := ControlGraph.contains_iff.1 has
    simp only [History.edit, ControlGraph.setExit, has, if_pos]
    exact { kept with
      exit := List.getLast?_concat.symm
      exits := List.forall_mem_append.2 ⟨kept.exits, List.forall_mem_singleton.2 hv⟩ }

theorem edit (kept : h.Kept) (e : Edit σ) : (h.edit e).Kept := by
  cases e with
  | push s => exact kept.push s
  | connect a b => exact kept.connect a b
  | connectChain vs => exact List.foldlRecOn _ _ kept fun _ kept e _ => kept.connect e.1 e.2
  | setEntry v => exact kept.setEntry v
  | setExit v => exact kept.setExit v

theorem mirrored (kept : h.Kept) : h.graph.Mirrored :=
  fun _ _ => kept.edge_inverse_iff.trans kept.edge_iff.symm

theorem designated (kept : h.Kept) : h.graph.Designated where
  entry v hv := kept.entries v (List.mem_of_getLast? (kept.entry ▸ hv))
  exit v hv := kept.exits v (List.mem_of_getLast? (kept.exit ▸ hv))

end Kept

theorem kept_ofEdits (edits : List (Edit σ)) : (ofEdits edits).Kept :=
  List.foldlRecOn edits edit kept_empty fun _ kept e _ => kept.edit e

end History

namespace ControlGraph

theorem wellFormed_ofEdits {σ : Type} (edits : List (Edit σ)) :
    (ofEdits edits).toGraph.WellFormed :=
  History.graph_ofEdits edits ▸ (History.kept_ofEdits edits).mirrored.wellFormed

theorem anchored_ofEdits {σ : Type} (edits : List (Edit σ)) : (ofEdits edits).toGraph.Anchored :=
  History.graph_ofEdits edits ▸ (History.kept_ofEdits edits).designated.anchored

end ControlGraph

namespace History

variable {σ : Type} {h : History σ} {a b u v : NodeId}

/-! ### Later edits -/

theorem edges_connect_prefix (h : History σ) (a b : NodeId) :
    h.edges <+: (h.connect a b).edges := by
  unfold connect
  split
  · exact List.prefix_append ..
  · exact List.prefix_refl _

theorem edges_edit_prefix (h : History σ) (e : Edit σ) : h.edges <+: (h.edit e).edges := by
  cases e with
  | push | setEntry | setExit => exact List.prefix_refl _
  | connect a b => exact h.edges_connect_prefix a b
  | connectChain vs =>
    exact List.foldlRecOn (motive := fun (h' : History σ) => h.edges <+: h'.edges) _ _
      (List.prefix_refl _) fun h' accepted e _ => accepted.trans (h'.edges_connect_prefix e.1 e.2)

/-- What has been accepted remains so. -/
theorem edges_prefix (edits later : List (Edit σ)) :
    (ofEdits edits).edges <+: (ofEdits (edits ++ later)).edges := by
  rw [ofEdits, ofEdits, List.foldl_append]
  exact List.foldlRecOn (motive := fun h : History σ => (ofEdits edits).edges <+: h.edges) later
    edit (List.prefix_refl _) fun h accepted e _ => accepted.trans (h.edges_edit_prefix e)

/-- A chain is nothing but its edges, asked for one by one. -/
theorem ofEdits_connectChain (edits : List (Edit σ)) (vs : List NodeId) :
    ofEdits (edits ++ [.connectChain vs]) =
      ofEdits (edits ++ vs.consecutivePairs.map fun e => .connect e.1 e.2) := by
  simp only [ofEdits, List.foldl_append, List.foldl_map]
  rfl

/-- Whatever is done to the empty graph, what has become of it is what its history tells. It accepts
an edge if both of its ends exist and it was not accepted before, it accepts as entry and as exit
the nodes that exist, and else stays as it is. A chain is its edges one by one, and what has been
accepted remains so. At each node are the edges that were accepted there, in this order and each
once, so that an edge is known at its start if and only if it is known at its end, and both are
nodes. A graph that has nodes has the node last accepted as entry, or else the first one made, and
the node last accepted as exit, or else the last one made. -/
theorem graph_of_history (edits : List (Edit σ)) :
    let h := ofEdits edits
    let g := ControlGraph.ofEdits edits
    h.graph = g ∧ h.made = g.nodes ∧
      (∀ a b, ((g.connect a b).2 = true ↔ a ∈ g.nodes ∧ b ∈ g.nodes ∧ (a, b) ∉ h.edges) ∧
        ((g.connect a b).2 = false → (g.connect a b).1 = g)) ∧
      (∀ v, ((g.setEntry v).2 = true ↔ v ∈ g.nodes) ∧
        ((g.setEntry v).2 = false → (g.setEntry v).1 = g) ∧
        ((g.setExit v).2 = true ↔ v ∈ g.nodes) ∧ ((g.setExit v).2 = false → (g.setExit v).1 = g)) ∧
      (∀ vs, ofEdits (edits ++ [.connectChain vs]) =
        ofEdits (edits ++ vs.consecutivePairs.map fun e => .connect e.1 e.2)) ∧
      (∀ later, h.edges <+: (ofEdits (edits ++ later)).edges) ∧
      (∀ v ∈ g.nodes, g.successors v = .ok (h.targets v) ∧ (h.targets v).Nodup ∧
        g.predecessors v = .ok (h.sources v) ∧ (h.sources v).Nodup) ∧
      (∀ a b, (g.toGraph.Edge a b ↔ (a, b) ∈ h.edges) ∧
        (g.toGraph.inverse.Edge b a ↔ (a, b) ∈ h.edges) ∧
        ((a, b) ∈ h.edges → a ∈ g.nodes ∧ b ∈ g.nodes)) ∧
      (g.nodes ≠ [] → ∃ u v,
        h.entries.getLast?.or h.made.head? = some u ∧ g.entry = .ok u ∧ u ∈ g.nodes ∧
        h.exits.getLast?.or h.made.getLast? = some v ∧ g.exit = .ok v ∧ v ∈ g.nodes) := by
  intro h g
  have kept : h.Kept := kept_ofEdits edits
  have same : g = h.graph := (graph_ofEdits edits).symm
  have anchored : h.graph.toGraph.Anchored := kept.designated.anchored
  rw [same]
  refine ⟨rfl, kept.nodes.symm,
    fun a b =>
      ⟨ControlGraph.connect_eq_true_iff.trans kept.accepts_iff, ControlGraph.connect_of_refused⟩,
    fun v => ⟨ControlGraph.setEntry_eq_true_iff, ControlGraph.setEntry_of_refused,
      ControlGraph.setExit_eq_true_iff, ControlGraph.setExit_of_refused⟩,
    ofEdits_connectChain edits, edges_prefix edits, fun v hv => ?_,
    fun a b => ⟨kept.edge_iff, kept.edge_inverse_iff, kept.ends (a, b)⟩, fun nonempty => ?_⟩
  · exact ⟨kept.successors_eq hv, nodup_targets kept.nodup v, kept.predecessors_eq hv,
      nodup_sources kept.nodup v⟩
  · obtain ⟨u, hu⟩ := anchored.entry nonempty
    obtain ⟨v, hv⟩ := anchored.exit nonempty
    exact ⟨u, v, kept.entry_eq_ok_iff.1 hu, hu, anchored.entry_mem u hu,
      kept.exit_eq_ok_iff.1 hv, hv, anchored.exit_mem v hv⟩

/-- An edge to a node that is made only later is refused, and accepted when it is asked for again;
after that it is refused, as is the second edge from the last node to itself. -/
example :
    (ofEdits [.push 7, .connect ⟨0⟩ ⟨1⟩, .push 7,
      .connectChain [⟨0⟩, ⟨1⟩, ⟨1⟩, ⟨1⟩, ⟨0⟩, ⟨1⟩]]).edges =
      [(⟨0⟩, ⟨1⟩), (⟨1⟩, ⟨1⟩), (⟨1⟩, ⟨0⟩)] := by
  decide

end History

end FlowFacts

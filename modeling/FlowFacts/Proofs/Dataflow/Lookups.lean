import FlowFacts.Proofs.Dataflow.Settings
import FlowFacts.Proofs.Dataflow.Validation
import FlowFacts.Proofs.Program.History

/-!
# Runs find what they look up

A run asks its graph for the entry and the exit, for the children and the parents of nodes, and for
the numbers of the nodes that it is told of. It asks nothing of a graph without nodes. Any other
graph that is well-formed and anchored has the answers: while it is validated
(`Graph.WellFormed.boundary_ne_lookup`), for the order of visits, and at each visit, whether
equations are solved (`Equations.Complete.solve_ne_gap`) or facts are checked
(`Equations.Complete.check_ne_gap`). So no run fails for want of an answer, and no node that it has
to do with is foreign to the graph (`Run.Answered`). Control-flow graphs are such graphs, whatever
edits made them, and so are their inverses (`Analysis.answered_of_edits`).
-/

namespace FlowFacts

/-! ### Equations without gaps -/

namespace Equations

variable {n : Nat} {F : Type} [LE F] [DecidableLE F] [DecidableEq F] {E : Equations n F}
  {order : List (Fin n)}

theorem Complete.solve_ne_gap (complete : E.Complete) (horder : E.order = .ok order)
    (settings : Settings) (e : LookupError) : (E.solve settings).2 ≠ .error (.gap e) := by
  intro h
  rcases solve_eq_error h with trips | ⟨_, -, h⟩ | h | ⟨e', he', -⟩
  · cases trips with
    | @sources i _ hs =>
      obtain ⟨_, hs'⟩ := complete.sources i
      cases hs.symm.trans hs'
    | @dependents i _ hd =>
      obtain ⟨_, hd'⟩ := complete.dependents i
      cases hd.symm.trans hd'
  · cases h
  · cases h
  · cases he'.symm.trans horder

theorem Complete.check_ne_gap (complete : E.Complete) (horder : E.order = .ok order)
    (store : Store n F) (e : LookupError) : (E.check store).2 ≠ some (.gap e) := by
  intro h
  rw [check_eq, horder] at h
  split at h
  · cases h
  · obtain ⟨i, -, hi⟩ := List.exists_of_findSome?_eq_some h
    obtain ⟨v, hv⟩ := complete.exists_visit (E.cleared store i) i
    cases hmisstep : v.misstep? with
    | some what =>
      simp only [objection?, hv, hmisstep] at hi
      cases hi
    | none =>
      simp only [objection?, hv, hmisstep] at hi
      obtain ⟨_, -, hi⟩ := Option.map_eq_some_iff.1 hi
      cases hi

end Equations

/-! ### Runs -/

theorem exists_of_tabulate_eq_error {ε α : Type} {n : Nat} {f : Fin n → Except ε α} {e : ε}
    (h : tabulate n f = .error e) : ∃ i, f i = .error e := by
  induction n with
  | zero => cases h
  | succ n ih =>
    unfold tabulate at h
    cases hfront : tabulate n fun i => f i.castSucc with
    | error e' =>
      rw [hfront] at h
      cases h
      obtain ⟨i, hi⟩ := ih hfront
      exact ⟨i.castSucc, hi⟩
    | ok front =>
      cases hlast : f (Fin.last n) with
      | error e' =>
        rw [hfront, hlast] at h
        cases h
        exact ⟨Fin.last n, hlast⟩
      | ok x =>
        rw [hfront, hlast] at h
        cases h

/-- The node that an entry of the journal is about, if it is about one. -/
def Entry.node? {ν F : Type} : Entry ν F → Option ν
  | seeded _ v | visited v .. | enqueued v => some v
  | running .. | passed .. | converged _ => none

/-- The run did not fail for want of an answer from the graph, and the nodes that it had to do with
are nodes of the graph. -/
structure Run.Answered {ν F α : Type} (g : Graph ν) (r : Run ν F α) : Prop where
  outcome : ∀ name d e, r.outcome ≠ .error ⟨name, d, .lookup e⟩
  nodes : ∀ entry ∈ r.journal, ∀ v, entry.node? = some v → v ∈ g.nodes

namespace Graph

variable {ν F : Type} {g : Graph ν} {d : Direction}

theorem eq_gap_of_causeOf {stop : Stop g.size} {e : LookupError}
    (h : g.causeOf d stop = .lookup e) : stop = .gap e := by
  cases stop with
  | gap => cases h; rfl
  | misstep _ what => cases what <;> cases h
  | _ => cases h

theorem mem_nodes_of_entries {p : Progress g.size F} {entry : Entry ν F}
    (h : entry ∈ g.entries d p) {v : ν} (about : entry.node? = some v) : v ∈ g.nodes := by
  obtain ⟨event, -, rfl⟩ := List.mem_map.1 h
  cases event with
  | visited visit => cases about; exact node_mem visit.node
  | enqueued i => cases about; exact node_mem i
  | passed => cases about

theorem WellFormed.boundary_ne_lookup [DecidableEq ν] (wf : g.WellFormed) (anchored : g.Anchored)
    (d : Direction) (e : LookupError) : g.boundary d ≠ .error (.lookup e) := by
  intro h
  cases (wf.boundary_eq_error_iff anchored).1 h

end Graph

namespace Analysis

variable {ν F : Type} [DecidableEq ν] [LE F] [DecidableLE F] [DecidableEq F] {g : Graph ν}

theorem solve_answered (a : Analysis ν F) (wf : g.WellFormed) (anchored : g.Anchored)
    (settings : Settings) : (a.solve settings g).Answered g := by
  cases hb : g.boundary a.direction with
  | error cause =>
    rw [solve, equations?, hb]
    constructor
    · intro _ _ e h
      cases h
      exact wf.boundary_ne_lookup anchored _ e hb
    · simp [Except.map, Entry.node?]
  | ok boundary =>
    obtain ⟨order, horder, -⟩ := wf.exists_visitOrder a.direction boundary
    constructor
    · intro name d e h
      rw [outcome_solve hb] at h
      split at h
      next last stop hsolve =>
        have cause := congrArg Failure.cause (Except.error.inj h)
        have hgap : stop = .gap e := Graph.eq_gap_of_causeOf cause
        apply (complete_equations wf).solve_ne_gap horder settings e
        rw [hsolve, hgap]
      next => cases h
    · intro entry hentry v about
      rw [journal_solve hb, List.mem_append, List.mem_cons, List.mem_cons] at hentry
      rcases hentry with (rfl | rfl | hentry) | hentry
      · cases about
      · cases about
        exact Graph.node_mem boundary
      · exact Graph.mem_nodes_of_entries hentry about
      · split at hentry
        · rw [List.mem_singleton.1 hentry] at about
          cases about
        · cases hentry

theorem journal_verify {a : Analysis ν F} {boundary : Fin g.size}
    (hb : g.boundary a.direction = .ok boundary) {s : Solution ν F} {store : Store g.size F}
    (hs : a.storeOf g s = .ok store) :
    (a.verify g s).journal = .seeded g.size (g.node boundary) ::
      g.entries a.direction ((a.equations g boundary).check store).1 := by
  simp only [verify, equations?, hb, hs, Except.map]
  cases ((a.equations g boundary).check store).2 <;> rfl

theorem verify_answered (a : Analysis ν F) (wf : g.WellFormed) (anchored : g.Anchored)
    (s : Solution ν F) : (a.verify g s).Answered g := by
  cases hb : g.boundary a.direction with
  | error cause =>
    rw [verify, equations?, hb]
    constructor
    · intro _ _ e h
      cases h
      exact wf.boundary_ne_lookup anchored _ e hb
    · simp [Except.map]
  | ok boundary =>
    obtain ⟨order, horder, -⟩ := wf.exists_visitOrder a.direction boundary
    cases hs : a.storeOf g s with
    | error cause =>
      simp only [verify, equations?, hb, hs, Except.map]
      constructor
      · intro _ _ e h
        cases h
        obtain ⟨i, hi⟩ := exists_of_tabulate_eq_error hs
        split at hi <;> cases hi
      · intro entry hentry v about
        rw [List.mem_singleton.1 hentry] at about
        cases about
        exact Graph.node_mem boundary
    | ok store =>
      constructor
      · intro name d e h
        rw [outcome_verify hb hs] at h
        split at h
        next stop hstop =>
          have cause := congrArg Failure.cause (Except.error.inj h)
          have hgap : stop = .gap e := Graph.eq_gap_of_causeOf cause
          apply (complete_equations wf).check_ne_gap horder store e
          rw [hstop, hgap]
        next => cases h
      · intro entry hentry v about
        rw [journal_verify hb hs, List.mem_cons] at hentry
        rcases hentry with rfl | hentry
        · cases about
          exact Graph.node_mem boundary
        · exact Graph.mem_nodes_of_entries hentry about

/-- Whatever edits made the program, also such that name nodes which it does not have: take it as it
is or turned round, with any analysis and settings, and with any facts to check. Entry and exit are
there as soon as there is a node. Each node has a statement, a number, successors and predecessors,
and these are nodes again. If the graph suits the analysis, then there are nodes to divide the
visits by, each of them has its sources and dependents, and there is an order of visits. So runs get
all the answers that they ask for, and each node that they come to is one of these nodes. -/
theorem answered_of_edits {σ : Type} (edits : List (Edit σ)) (view : Direction)
    (a : Analysis NodeId F) (settings : Settings) (s : Solution NodeId F) :
    let program := ControlGraph.ofEdits edits
    let g := view.flow program.toGraph
    g.Anchored ∧ g.WellFormed ∧
    (∀ v ∈ g.nodes, (∃ statement, program.statement v = .ok statement) ∧
      ∃ i, g.node i = v ∧ g.number v = .ok i) ∧
    (∀ E, a.equations? g = .ok E → 0 < g.size ∧ E.Complete ∧ ∃ order, E.order = .ok order) ∧
    (a.solve settings g).Answered g ∧ (a.verify g s).Answered g := by
  intro program g
  have wf : g.WellFormed := (ControlGraph.wellFormed_ofEdits edits).flow view
  have anchored : g.Anchored := (ControlGraph.anchored_ofEdits edits).flow view
  refine ⟨anchored, wf, fun v hv => ⟨?_, Graph.number_eq_ok wf.nodup hv⟩, fun E hE => ?_,
    a.solve_answered wf anchored settings, a.verify_answered wf anchored s⟩
  · rw [Graph.nodes_flow] at hv
    obtain ⟨block, hblock⟩ := ControlGraph.mem_nodes_iff_block.1 hv
    exact ⟨block.statement, congrArg (Except.map Block.statement) hblock⟩
  · unfold equations? at hE
    cases hb : g.boundary a.direction with
    | error cause =>
      rw [hb] at hE
      cases hE
    | ok boundary =>
      rw [hb] at hE
      cases hE
      obtain ⟨order, horder, -⟩ := wf.exists_visitOrder a.direction boundary
      exact ⟨boundary.pos, complete_equations wf, order, horder⟩

end Analysis

end FlowFacts

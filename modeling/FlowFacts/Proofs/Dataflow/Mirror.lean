import FlowFacts.Proofs.Dataflow.Settings
import FlowFacts.Proofs.Dataflow.Validation
import FlowFacts.Proofs.Program.History

/-!
# Backward is forward on the inverse

`Analysis.mirror` is the same analysis in the opposite direction: its transfer function is the old
one with the two sides of a node exchanged. Over the inverse of a graph it has the same equations as
the old one over the graph itself (`Analysis.equations_mirror`), up to the order in which the nodes
are visited. The nodes that information from the boundary does not get to come last in that order,
and they come by number in the one direction and by falling number in the other. Where there are
none, a backward run and its mirror image do the same, with the two sides of every node exchanged
(`Analysis.solve_mirror`).
-/

namespace FlowFacts

variable {ν F : Type}

namespace NodeFacts

@[simp] theorem swap_swap (facts : NodeFacts F) : facts.swap.swap = facts := rfl

end NodeFacts

namespace Direction

@[simp] theorem opposite_opposite (d : Direction) : d.opposite.opposite = d := by
  cases d <;> rfl

@[simp] theorem flow_inverse (d : Direction) (g : Graph ν) :
    d.flow g.inverse = d.opposite.flow g := by
  cases d <;> rfl

@[simp] theorem place_opposite (d : Direction) (sides : Sides F) :
    d.opposite.place sides = (d.place sides).swap := by
  cases d <;> rfl

@[simp] theorem orient_opposite (d : Direction) (facts : NodeFacts F) :
    d.opposite.orient facts = d.orient facts.swap := by
  cases d <;> rfl

end Direction

/-! ### The visit order -/

namespace Graph

variable [DecidableEq ν] {g : Graph ν} {d : Direction} {boundary : Fin g.size}

/-- The inverse lists the same nodes, so it numbers them in the same way. -/
theorem number_inverse (g : Graph ν) (v : ν) : g.inverse.number v = g.number v := by
  unfold number
  cases h : lastIndex? v g.nodes with
  | none => rw [show lastIndex? v g.inverse.nodes = none from h]; rfl
  | some i => rw [show lastIndex? v g.inverse.nodes = some i from h]; rfl

theorem numbered_inverse (g : Graph ν) (answer : Except LookupError (List ν)) :
    g.inverse.numbered answer = g.numbered answer :=
  congrArg (fun number => answer.bind fun vs => vs.mapM number) (funext (number_inverse g))

theorem WellFormed.visitOrder_inverse (wf : g.WellFormed)
    (reached : ∀ v ∈ g.nodes, (d.flow g).Reachable (g.node boundary) v) :
    g.inverse.visitOrder d.opposite boundary = g.visitOrder d boundary := by
  have same : d.opposite.flow g.inverse = d.flow g := by simp
  have order : g.inverse.visitOrder d.opposite boundary = g.inverse.numbered
      ((d.opposite.flow g.inverse).reversePostorder (g.inverse.node boundary)) :=
    wf.inverse.visitOrder_eq (by rwa [same])
  rw [same, numbered_inverse] at order
  exact order.trans (wf.visitOrder_eq reached).symm

/-- A graph that suits the backward direction has an inverse that suits the forward one: its
boundary is its entry, and so can be reached. -/
theorem WellFormed.boundary_inverse (wf : g.WellFormed) (anchored : g.Anchored)
    (h : g.boundary .backward = .ok boundary) : g.inverse.boundary .forward = .ok boundary := by
  obtain ⟨entry, parents⟩ := boundary_eq_ok h
  rcases wf.inverse.boundary_cases anchored.inverse .forward with
    ⟨u, i, -, hv, -, -, hb⟩ | ⟨cause, unsuited, -⟩
  · have same : g.node i = g.node boundary := Except.ok.inj (hv.symm.trans entry)
    rw [hb, node_injective wf.nodup same]
  · cases unsuited with
    | empty hnil =>
      have hnil : g.nodes = [] := hnil
      exact absurd (hnil ▸ node_mem boundary) List.not_mem_nil
    | unreachable hu hv apart =>
      cases hu.symm.trans hv
      exact absurd (.refl _) apart
    | fed _ hv _ hus some =>
      cases hv.symm.trans entry
      cases hus.symm.trans parents
      exact absurd rfl some

end Graph

/-! ### The mirrored analysis -/

namespace Analysis

/-- The analysis in the opposite direction: its transfer function does the same to the same
roles. -/
def mirror (a : Analysis ν F) : Analysis ν F where
  name := a.name
  direction := a.direction.opposite
  boundary := a.boundary
  initial := a.initial
  meet := a.meet
  transfer v facts :=
    let result := a.transfer v facts.swap
    (result.1.swap, result.2)
  notes := a.notes

@[simp] theorem mirror_mirror (a : Analysis ν F) : a.mirror.mirror = a := by
  simp [mirror]

@[simp] theorem direction_mirror (a : Analysis ν F) :
    a.mirror.direction = a.direction.opposite := rfl

theorem transferSides_mirror (a : Analysis ν F) (v : ν) (sides : Sides F) :
    a.mirror.transferSides v sides = a.transferSides v sides := by
  simp [transferSides, mirror]

variable [DecidableEq ν] {a : Analysis ν F} {g : Graph ν} {boundary : Fin g.size}

theorem equations_mirror (wf : g.WellFormed)
    (reached : ∀ v ∈ g.nodes, (a.direction.flow g).Reachable (g.node boundary) v) :
    a.mirror.equations g.inverse boundary = a.equations g boundary := by
  have order :
      g.inverse.visitOrder a.mirror.direction boundary = g.visitOrder a.direction boundary :=
    wf.visitOrder_inverse reached
  have flow : a.mirror.direction.flow g.inverse = a.direction.flow g := by simp
  have transfer : (fun i : Fin g.size => a.mirror.transferSides (g.node i)) =
      fun i => a.transferSides (g.node i) :=
    funext fun i => funext (a.transferSides_mirror (g.node i))
  unfold equations
  simp only [order, flow, Graph.numbered_inverse]
  exact congrArg
    (fun t => ({ a.equations g boundary with transfer := t } : Equations g.size F)) transfer

end Analysis

/-! ### Runs -/

/-- The entry with the two sides of a node exchanged. -/
def Entry.swap : Entry ν F → Entry ν F
  | .visited v facts report => .visited v facts.swap report
  | .running size strategy => .running size strategy
  | .seeded size v => .seeded size v
  | .passed number report => .passed number report
  | .enqueued v => .enqueued v
  | .converged tally => .converged tally

namespace Graph

variable {g : Graph ν} {d : Direction}

theorem entryOf_opposite (e : Event g.size F) :
    g.inverse.entryOf d.opposite e = (g.entryOf d e).swap := by
  cases e with
  | visited v =>
    exact congrArg (fun facts => Entry.visited (g.node v.node) facts v.report) (by simp)
  | passed => rfl
  | enqueued => rfl

theorem entries_opposite (p : Progress g.size F) :
    g.inverse.entries d.opposite p = (g.entries d p).map Entry.swap := by
  calc g.inverse.entries d.opposite p
      = p.events.reverse.map (Entry.swap ∘ g.entryOf d) :=
        List.map_congr_left fun e _ => entryOf_opposite (g := g) e
    _ = (g.entries d p).map Entry.swap := List.map_map.symm

theorem factsOf_opposite (store : Store g.size F) :
    g.inverse.factsOf d.opposite store =
      (g.factsOf d store).map fun (v, facts) => (v, facts.swap) := by
  calc g.inverse.factsOf d.opposite store
      = (List.finRange g.size).map fun i => (g.node i, (d.place (store.get i)).swap) :=
        List.map_congr_left fun i _ => congrArg (g.node i, ·) (d.place_opposite (store.get i))
    _ = (g.factsOf d store).map fun (v, facts) => (v, facts.swap) := by
        rw [factsOf, List.map_map]
        rfl

/-- Of the reasons to stop, only one is about a side of a node. -/
theorem causeOf_opposite {stop : Stop g.size} (h : ∀ i role, stop ≠ .unstable i role) :
    g.inverse.causeOf d.opposite stop = g.causeOf d stop := by
  cases stop with
  | misstep i what => cases what <;> rfl
  | unstable i role => exact absurd rfl (h i role)
  | limitReached => rfl
  | countExhausted => rfl
  | gap => rfl

end Graph

/-- The solution with the two sides of every node exchanged. -/
def Solution.swap (s : Solution ν F) : Solution ν F :=
  ⟨s.entries.map fun (v, facts) => (v, facts.swap), s.stats⟩

theorem Solution.facts?_swap [DecidableEq ν] (s : Solution ν F) (v : ν) :
    s.swap.facts? v = (s.facts? v).map NodeFacts.swap := by
  unfold facts? swap
  rw [← List.map_reverse]
  induction s.entries.reverse with
  | nil => rfl
  | cons entry rest ih =>
    rw [List.map_cons, List.lookup_cons, List.lookup_cons]
    split
    · rfl
    · exact ih

namespace Analysis

variable [DecidableEq ν] [LE F] [DecidableLE F] [DecidableEq F] {a : Analysis ν F} {g : Graph ν}
  {boundary : Fin g.size}

/-- Neither of two runs that are mirror images of each other can be told from the other, except by
the sides of the nodes. -/
structure MirrorImages (a : Analysis ν F) (run mirrored : Run ν F (Solution ν F)) : Prop where
  journal : mirrored.journal = run.journal.map Entry.swap
  outcome : (∃ s, run.outcome = .ok s ∧ mirrored.outcome = .ok s.swap) ∨
    ∃ cause, run.outcome = .error (a.failure cause) ∧
      mirrored.outcome = .error (a.mirror.failure cause)

/-- Whatever the meet and the transfer functions are and whatever the settings: where the exit can
be reached from every node, a backward run and the run of its mirror image over the inverse of the
graph are mirror images. -/
theorem solve_mirror (wf : g.WellFormed) (anchored : g.Anchored)
    (backward : a.direction = .backward) (hb : g.boundary .backward = .ok boundary)
    (leads : ∀ v ∈ g.nodes, g.Reachable v (g.node boundary)) (settings : Settings) :
    MirrorImages a (a.solve settings g) (a.mirror.solve settings g.inverse) := by
  have forward : a.mirror.direction = .forward := by rw [direction_mirror, backward]; rfl
  have hb' : g.inverse.boundary a.mirror.direction = .ok boundary := by
    rw [forward]
    exact wf.boundary_inverse anchored hb
  have reached : ∀ v ∈ g.nodes, (a.direction.flow g).Reachable (g.node boundary) v := by
    rw [backward]
    exact fun v hv => wf.reachable_inverse hv (leads v hv)
  have same := equations_mirror (a := a) wf reached
  rw [← backward] at hb
  have journal := journal_solve hb settings
  have outcome := outcome_solve hb settings
  rcases hsolve : (a.equations g boundary).solve settings with ⟨last, stop | tally⟩
  all_goals
    have hsolve' := (congrArg (Equations.solve · settings) same).trans hsolve
    have journal' := journal_solve hb' settings
    have outcome' := outcome_solve hb' settings
    rw [hsolve'] at journal' outcome'
    rw [hsolve] at journal outcome
    have entries : g.inverse.entries a.mirror.direction last =
        (g.entries a.direction last).map Entry.swap := Graph.entries_opposite last
    rw [entries] at journal'
  · have stable : ∀ i role, stop ≠ .unstable i role := by
      rintro i role rfl
      exact Equations.solve_ne_unstable i role (congrArg Prod.snd hsolve)
    refine ⟨?_, .inr ⟨_, outcome, outcome'.trans ?_⟩⟩
    · rw [journal, journal', List.map_append]
      rfl
    · exact congrArg (fun cause => Except.error (a.mirror.failure cause))
        (Graph.causeOf_opposite stable)
  · refine ⟨?_, .inl ⟨_, outcome, outcome'.trans ?_⟩⟩
    · rw [journal, journal', List.map_append]
      rfl
    · exact congrArg (fun entries => Except.ok (Solution.mk entries ⟨tally, settings.strategy⟩))
        (Graph.factsOf_opposite last.store)

/-- Whatever edits made the graph: both runs have a result, for the same work and with the facts
before and after each node exchanged, or both fail for the same cause. What happens on the way there
is the same. -/
theorem solve_inverse_of_backward {σ : Type} {edits : List (Edit σ)} {a : Analysis NodeId F}
    (backward : a.direction = .backward)
    (suits : ∃ boundary, (ControlGraph.ofEdits edits).toGraph.boundary .backward = .ok boundary)
    (leads : ∀ v ∈ (ControlGraph.ofEdits edits).nodes, ∀ x,
      (ControlGraph.ofEdits edits).exit = .ok x →
      (ControlGraph.ofEdits edits).toGraph.Reachable v x) (settings : Settings) :
    let run := a.solve settings (ControlGraph.ofEdits edits).toGraph
    let mirrored := a.mirror.solve settings (ControlGraph.ofEdits edits).toGraph.inverse
    ((∃ s t, run.outcome = .ok s ∧ mirrored.outcome = .ok t ∧ t.stats = s.stats ∧
        ∀ v, t.facts? v = (s.facts? v).map NodeFacts.swap) ∨
      ∃ cause, run.outcome = .error (a.failure cause) ∧
        mirrored.outcome = .error (a.mirror.failure cause)) ∧
    mirrored.journal = run.journal.map Entry.swap := by
  obtain ⟨boundary, hb⟩ := suits
  have exit : (ControlGraph.ofEdits edits).exit = .ok _ := (Graph.boundary_eq_ok hb).1
  obtain ⟨journal, outcome⟩ := solve_mirror (ControlGraph.wellFormed_ofEdits edits)
    (ControlGraph.anchored_ofEdits edits) backward hb (fun v hv => leads v hv _ exit) settings
  refine ⟨outcome.imp_left ?_, journal⟩
  rintro ⟨s, hs, ht⟩
  exact ⟨s, s.swap, hs, ht, rfl, s.facts?_swap⟩

/-- How many more nodes follow on the longest way from a node, up to three. -/
def stepsLeft : Analysis NodeId Nat where
  name := "steps left"
  direction := .backward
  boundary := 0
  initial := 0
  meet fact target := max target fact
  transfer _ facts :=
    let before := max facts.before (min 3 (facts.after + 1))
    (⟨before, facts.after⟩, .ofBool (before != facts.before))

/-- Two nodes after each other in a loop, which the second one leaves for the exit. -/
def twoRounds : List (Edit Unit) :=
  [.push (), .push (), .push (), .connectChain [⟨0⟩, ⟨1⟩, ⟨0⟩], .connect ⟨1⟩ ⟨2⟩]

theorem solve_inverse_twoRounds :
    ∃ s t, (stepsLeft.solve {} (ControlGraph.ofEdits twoRounds).toGraph).outcome = .ok s ∧
      (stepsLeft.mirror.solve {} (ControlGraph.ofEdits twoRounds).toGraph.inverse).outcome = .ok t ∧
      t.stats = s.stats ∧ ∀ v, t.facts? v = (s.facts? v).map NodeFacts.swap := by
  have wf := ControlGraph.wellFormed_ofEdits twoRounds
  have leads : ∀ v ∈ (ControlGraph.ofEdits twoRounds).nodes, ∀ x,
      (ControlGraph.ofEdits twoRounds).exit = .ok x →
      (ControlGraph.ofEdits twoRounds).toGraph.Reachable v x := by
    intro v hv x hx
    obtain rfl : (⟨2⟩ : NodeId) = x := Except.ok.inj hx
    have reaches : ∀ v ∈ (ControlGraph.ofEdits twoRounds).nodes,
        (ControlGraph.ofEdits twoRounds).toGraph.reaches v ⟨2⟩ = .ok true := by decide +kernel
    exact (wf.reaches_eq_true_iff hv).1 (reaches v hv)
  obtain ⟨s, hs⟩ :
      ∃ s, (stepsLeft.solve {} (ControlGraph.ofEdits twoRounds).toGraph).outcome = .ok s :=
    exists_eq_ok (by decide +kernel)
  rcases (solve_inverse_of_backward (a := stepsLeft) rfl (exists_eq_ok (by decide +kernel))
      leads {}).1
    with ⟨s', t, hs', same⟩ | ⟨cause, failed, -⟩
  · exact ⟨s', t, hs', same⟩
  · cases hs.symm.trans failed

end Analysis

end FlowFacts

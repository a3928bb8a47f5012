import FlowFacts.Proofs.Dataflow.Verification

/-!
# What a result satisfies

Whatever the meet and the transfer functions are, as long as these leave the input sides alone: the
input of every node in a result is the meet over the outputs that its flow sources have in that
result (`Analysis.Collects`). A result of rounds is moreover left as it is by every transfer
function.
-/

namespace FlowFacts.Analysis

variable {ν F : Type} {a : Analysis ν F} {g : Graph ν}

/-- At the boundary comes in what the analysis says, and elsewhere the meet over the outputs of the
flow sources, one after the other in the order in which the graph reports them. -/
structure Collects (a : Analysis ν F) (g : Graph ν) (X : ν → Sides F) : Prop where
  boundary : ∀ v, (a.direction.flow g).entry = .ok v → (X v).input = a.boundary
  input : ∀ v ∈ g.nodes, (a.direction.flow g).entry ≠ .ok v →
    ∀ us, (a.direction.flow g).parents v = .ok us → (X v).input = a.meetOf X us

variable [DecidableEq ν] {boundary : Fin g.size}

theorem collects_of_collected (wf : g.WellFormed)
    (hentry : (a.direction.flow g).entry = .ok (g.node boundary)) {X : ν → Sides F}
    {store : Store g.size F} (hX : ∀ i, X (g.node i) = store.get i)
    (entered : (store.get boundary).input = a.boundary)
    (collected : ∀ i, (a.equations g boundary).Collected store i) : a.Collects g X := by
  refine ⟨fun v hv => ?_, fun v hv hne us hus => ?_⟩
  · cases hentry.symm.trans hv
    rw [hX]
    exact entered
  · obtain ⟨i, rfl⟩ := Graph.exists_node hv
    obtain ⟨sources, hs, hparents⟩ := exists_sources a boundary wf i
    cases hus.symm.trans hparents
    have hi : i ≠ boundary := by
      rintro rfl
      exact hne hentry
    have input : (a.equations g boundary).gather store i = .ok (store.get i).input := collected i
    rw [Equations.gather_of_ne hi, hs] at input
    rw [meetOf_node hX, hX]
    exact (Except.ok.inj input).symm

variable [LE F] [DecidableLE F] [DecidableEq F]

/-- A result has facts for every node, and the input sides are those that the output sides make up.
If it was reached in rounds, no transfer function would change any of it, or say that it did. -/
theorem collects_of_solve (wf : g.WellFormed)
    (keeps : ∀ v ∈ g.nodes, ∀ sides, (a.transferSides v sides).1.input = sides.input)
    {settings : Settings} (checked : settings.checkTransfer = true) {s : Solution ν F}
    (h : (a.solve settings g).outcome = .ok s) :
    ∃ X : ν → Sides F, (∀ v ∈ g.nodes, s.facts? v = some (a.direction.place (X v))) ∧
      a.Collects g X ∧ (settings.strategy = .roundRobin → ∀ v ∈ g.nodes,
        a.transfer v (a.direction.place (X v)) = (a.direction.place (X v), .unchanged)) := by
  obtain ⟨boundary, last, tally, hb, hrun, rfl⟩ := solve_eq_ok h
  have keepsInputs : (a.equations g boundary).KeepsInputs := fun i => keeps _ (Graph.node_mem i)
  have honest : (a.equations g boundary).Honest settings.checkTransfer := by
    rw [checked]
    exact keepsInputs.honest
  obtain ⟨X, hX, facts⟩ := exists_facts a wf.nodup last.store ⟨tally, settings.strategy⟩
  refine ⟨X, facts, ?_, fun rounds => Graph.forall_node.2 fun i => ?_⟩
  · exact collects_of_collected wf (Graph.boundary_eq_ok hb).1 hX
      ((Equations.trail_of_solve hrun).boundary_input keepsInputs)
      fun i => (Equations.settled_solve honest (wired_equations wf) hrun i).1
  · have steady : a.transferSides (g.node i) (last.store.get i) = (last.store.get i, .unchanged) :=
      Equations.steady_solve honest (wired_equations wf) hrun rounds i
    obtain ⟨facts, report⟩ := Prod.mk.inj steady
    rw [hX]
    exact Prod.ext
      ((a.direction.place_orient _).symm.trans (congrArg a.direction.place facts)) report

/-- What the last source that a node has reported, answered with the more the less it is: neither is
the meet commutative nor the transfer function monotone. -/
def lastReported : Analysis Nat Nat where
  name := "last reported"
  direction := .forward
  boundary := 1
  initial := 0
  meet fact _ := fact
  transfer _ facts :=
    let after := max facts.after (3 - facts.before)
    (⟨facts.before, after⟩, .ofBool (after != facts.after))

theorem collects_spinning :
    ∃ s, (lastReported.solve {} spinning).outcome = .ok s ∧
      ∃ X : Nat → Sides Nat, (∀ v ∈ spinning.nodes, s.facts? v = some ⟨(X v).input, (X v).output⟩) ∧
        lastReported.Collects spinning X ∧ ∀ v ∈ spinning.nodes,
          lastReported.transfer v ⟨(X v).input, (X v).output⟩ =
            (⟨(X v).input, (X v).output⟩, .unchanged) := by
  obtain ⟨s, h⟩ : ∃ s, (lastReported.solve {} spinning).outcome = .ok s :=
    exists_eq_ok (by decide +kernel)
  obtain ⟨X, facts, collects, steady⟩ :=
    collects_of_solve (by decide) (fun _ _ _ => rfl) rfl h
  exact ⟨s, h, X, facts, collects, steady rfl⟩

end FlowFacts.Analysis

import FlowFacts.Proofs.Equations.Accumulation

/-!
# Comparing schedules

Facts are stable if they solve the equations and no transfer function changes any of them
(`Equations.Stable`). Rounds end with stable facts. The worklist need not: it does not come back to
a node whose sources are done with changing, although the transfer function could go on from the
output that it left. Where meets and transfer functions are monotone (`Equations.Isotone`), no
schedule ever exceeds stable facts, so what the worklist ends with is below what rounds end with,
and the same exactly if it is stable as well (`Equations.compare_solve`).
-/

namespace FlowFacts.Equations

variable {n : Nat} {F : Type} {E : Equations n F}

/-- Facts from outside and facts that were collected, which no transfer function changes. -/
structure Stable (E : Equations n F) (store : Store n F) : Prop where
  entered : (store.get E.boundary).input = E.boundaryFact
  collected : ∀ i, E.Collected store i
  unmoved : ∀ i, (E.transfer i (store.get i)).1 = store.get i

/-- A transfer function that has nothing to add to what it just did leaves a node that was visited
as it is. -/
theorem Trail.unmoved {visits : List (Visit n F)} {store : Store n F} (h : E.Trail visits store)
    (again : ∀ i facts, (E.transfer i (E.transfer i facts).1).1 = (E.transfer i facts).1)
    {i : Fin n} (visited : ∃ v ∈ visits, v.node = i) :
    (E.transfer i (store.get i)).1 = store.get i := by
  obtain ⟨facts, left⟩ := h.exists_found visited
  rw [← left, again]

/-- Where no visit changed an output, the outputs are those of the seed. -/
theorem Trail.output_eq_initial {visits : List (Visit n F)} {store : Store n F}
    (h : E.Trail visits store) (still : ∀ v ∈ visits, v.left.output = v.found.output) (i : Fin n) :
    (store.get i).output = E.initial := by
  induction h generalizing i with
  | seed =>
    rw [get_seed]
    split <;> rfl
  | visit _ hv ih =>
    obtain ⟨hstill, earlier⟩ := List.forall_mem_cons.1 still
    obtain ⟨-, -, hfound, -⟩ := visit_eq_ok_iff.1 hv
    refine Store.forall_put (P := fun _ facts => facts.output = E.initial) ?_
      (fun j _ => ih earlier j) i
    rw [hstill, hfound, ih earlier]

/-- Meets and transfer functions are monotone, from a least fact on, and the inputs are left
alone. -/
structure Isotone [LE F] (E : Equations n F) : Prop where
  initial_le : ∀ x, E.initial ≤ x
  meet_le : ∀ {x x' y y'}, x ≤ x' → y ≤ y' → E.meet x y ≤ E.meet x' y'
  transfer_le : ∀ i {s t : Sides F}, s.input ≤ t.input → s.output ≤ t.output →
    (E.transfer i s).1.output ≤ (E.transfer i t).1.output
  keeps : E.KeepsInputs

section

variable [Preorder F] (iso : E.Isotone)
include iso

theorem Isotone.meetsUpward : E.MeetsUpward := ⟨iso.initial_le, iso.meet_le⟩

/-- No schedule, at any time, exceeds stable facts. -/
theorem Trail.le_of_stable {visits : List (Visit n F)} {store : Store n F}
    (h : E.Trail visits store) {bound : Store n F} (stable : E.Stable bound) (i : Fin n) :
    (store.get i).input ≤ (bound.get i).input ∧ (store.get i).output ≤ (bound.get i).output := by
  refine h.invariant
    (P := fun i s => s.input ≤ (bound.get i).input ∧ s.output ≤ (bound.get i).output)
    (fun i => ?_) (fun store i v below hv => ?_) i
  · rw [get_seed]
    split
    next hi => exact ⟨(hi ▸ stable.entered).ge, iso.initial_le _⟩
    next => exact ⟨iso.initial_le _, iso.initial_le _⟩
  · obtain ⟨-, hgather, hfound, htransfer⟩ := visit_eq_ok_iff.1 hv
    have hinput : v.found.input ≤ (bound.get i).input := by
      obtain ⟨-, hx⟩ | ⟨hi, sources, hs, hx⟩ := gather_eq_ok_iff.1 hgather
      · exact hx ▸ (below i).1
      · have collected : E.gather bound i = .ok (bound.get i).input := stable.collected i
        rw [gather_of_ne hi, hs] at collected
        rw [hx, ← Except.ok.inj collected]
        exact iso.meetsUpward.meetOver_le fun j _ => (below j).2
    have houtput : v.left.output ≤ (bound.get i).output := by
      have bounded := iso.transfer_le i hinput (hfound ▸ (below i).2)
      rwa [htransfer, stable.unmoved] at bounded
    exact ⟨(iso.keeps.left_input hv).trans_le hinput, houtput⟩

end

/-! ### Results -/

variable [PartialOrder F] [DecidableLE F] [DecidableEq F]

/-- All that the result of a schedule can lack to be stable is that transfer functions are done. -/
theorem stable_iff_of_solve {settings : Settings} (honest : E.Honest settings.checkTransfer)
    (keeps : E.KeepsInputs) (wired : E.Wired) {last : Progress n F} {tally : Tally}
    (h : E.solve settings = (last, .ok tally)) :
    E.Stable last.store ↔ ∀ i, (E.transfer i (last.store.get i)).1 = last.store.get i := by
  exact ⟨Stable.unmoved, fun unmoved =>
    ⟨(trail_of_solve h).boundary_input keeps, fun i => (settled_solve honest wired h i).1, unmoved⟩⟩

/-- What any schedule ends with is below what rounds end with. It is the same exactly if no transfer
function would change it, and so it is if transfer functions have nothing to add to what they
did. -/
theorem compare_solve (iso : E.Isotone) (grows : E.Grows) (wired : E.Wired)
    {settings settings' : Settings} {last last' : Progress n F} {tally tally' : Tally}
    (h : E.solve settings = (last, .ok tally)) (rounds : settings.strategy = .roundRobin)
    (h' : E.solve settings' = (last', .ok tally')) :
    (∀ i, (last'.store.get i).input ≤ (last.store.get i).input ∧
        (last'.store.get i).output ≤ (last.store.get i).output) ∧
      ((∀ i, last'.store.get i = last.store.get i) ↔
        ∀ i, (E.transfer i (last'.store.get i)).1 = last'.store.get i) ∧
      ((∀ i facts, (E.transfer i (E.transfer i facts).1).1 = (E.transfer i facts).1) →
        ∀ i, last'.store.get i = last.store.get i) := by
  have trail := trail_of_solve h
  have trail' := trail_of_solve h'
  have steady : ∀ i, E.transfer i (last.store.get i) = (last.store.get i, .unchanged) :=
    steady_solve (grows.honest iso.keeps) wired h rounds
  have unmoved : ∀ i, (E.transfer i (last.store.get i)).1 = last.store.get i :=
    fun i => by rw [steady]
  have below := trail'.le_of_stable iso
    ((stable_iff_of_solve (grows.honest iso.keeps) iso.keeps wired h).2 unmoved)
  -- If the other result is stable too, each of the two is below the other.
  have same : (∀ i, (E.transfer i (last'.store.get i)).1 = last'.store.get i) →
      ∀ i, last'.store.get i = last.store.get i := by
    intro unmoved' i
    have above := trail.le_of_stable iso
      ((stable_iff_of_solve (grows.honest iso.keeps) iso.keeps wired h').2 unmoved') i
    exact Sides.ext (le_antisymm (below i).1 above.1) (le_antisymm (below i).2 above.2)
  refine ⟨below, ⟨fun eq i => ?_, same⟩, fun again => same fun i => ?_⟩
  · rw [eq, unmoved]
  · exact trail'.unmoved again (settled_solve (grows.honest iso.keeps) wired h' i).2

end FlowFacts.Equations

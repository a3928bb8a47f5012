import FlowFacts.Proofs.Equations.Settling
import FlowFacts.Proofs.Equations.Termination

/-!
# Facts that go up from visit to visit

A visit forgets what its node had collected and collects again. If outputs never shrink and meets
are monotone (`Equations.Ascends`), then there is no less to collect than before: what any visit
left at a node is below what is there to collect now, and below the output that is there now
(`Trail.left_le`). So the inputs and the outputs of a node go up from visit to visit
(`Trail.pairwise_left`), although the transfer functions need not be monotone in their inputs.

Whatever the transfer functions do, the facts of a node are those of its last visit
(`Trail.last_left`), and work with a result visits every node (`Equations.visited_solve`).
-/

namespace FlowFacts.Equations

variable {n : Nat} {F : Type} {E : Equations n F} {visits : List (Visit n F)} {store : Store n F}

/-- Meets are monotone, and transfer functions leave the inputs alone and take nothing away from the
outputs. -/
structure Ascends [LE F] (E : Equations n F) : Prop where
  meets : E.MeetsUpward
  keeps : E.KeepsInputs
  output_le : ∀ i facts, facts.output ≤ (E.transfer i facts).1.output

section

variable [LE F] [Std.IsPreorder F] (ascends : E.Ascends)
include ascends

omit [Std.IsPreorder F] in
theorem Ascends.output_le_of_visit {i : Fin n} {v : Visit n F} (hv : E.visit store i = .ok v) :
    (store.get i).output ≤ v.left.output := by
  obtain ⟨-, -, hfound, htransfer⟩ := visit_eq_ok_iff.1 hv
  simpa [htransfer, hfound] using ascends.output_le i v.found

/-- After a visit there is no less to collect than before it. -/
theorem Ascends.gather_le_put {i j : Fin n} {v : Visit n F} (hv : E.visit store i = .ok v) {y : F}
    (h : E.gather (store.put i v.left) j = .ok y) : ∃ x, E.gather store j = .ok x ∧ x ≤ y := by
  have hgather := (visit_eq_ok_iff.1 hv).2.1
  refine ascends.meets.gather_le (fun hj => ?_) (fun k => ?_) h
  · rw [Store.get_put]
    split
    next hi =>
      subst hi hj
      rw [ascends.keeps.left_input hv, ← Except.ok.inj ((gather_boundary store).symm.trans hgather)]
      exact Std.le_refl _
    next => exact Std.le_refl _
  · exact Store.forall_put (P := fun k facts => (store.get k).output ≤ facts.output)
      (ascends.output_le_of_visit hv) (fun _ _ => Std.le_refl _) k

/-- What a visit left is below what can be collected now, and below the output now. -/
theorem Trail.left_le (trail : E.Trail visits store) {v : Visit n F} (hv : v ∈ visits) :
    (∀ x, E.gather store v.node = .ok x → v.left.input ≤ x) ∧
      v.left.output ≤ (store.get v.node).output := by
  induction trail with
  | seed => cases hv
  | @visit visits store k w _ hw ih =>
    have grown : (store.get v.node).output ≤ ((store.put k w.left).get v.node).output :=
      Store.forall_put (P := fun j facts => (store.get j).output ≤ facts.output)
        (ascends.output_le_of_visit hw) (fun _ _ => Std.le_refl _) v.node
    rcases List.mem_cons.1 hv with rfl | hv
    · obtain ⟨rfl, hgather, -, -⟩ := visit_eq_ok_iff.1 hw
      refine ⟨fun y hy => ?_, by rw [Store.get_put, if_pos rfl]; exact Std.le_refl _⟩
      obtain ⟨x, hx, le⟩ := ascends.gather_le_put hw hy
      rwa [ascends.keeps.left_input hw, Except.ok.inj (hgather.symm.trans hx)]
    · obtain ⟨input, output⟩ := ih hv
      refine ⟨fun y hy => ?_, Std.le_trans output grown⟩
      obtain ⟨x, hx, le⟩ := ascends.gather_le_put hw hy
      exact Std.le_trans (input x hx) le

/-- From one visit of a node to a later one, neither side of its facts shrinks. -/
theorem Trail.pairwise_left (trail : E.Trail visits store) :
    visits.Pairwise fun later earlier => earlier.node = later.node →
      earlier.left.input ≤ later.left.input ∧ earlier.left.output ≤ later.left.output := by
  induction trail with
  | seed => exact .nil
  | @visit visits store i w trail hw ih =>
    obtain ⟨hnode, hgather, -, -⟩ := visit_eq_ok_iff.1 hw
    refine List.pairwise_cons.2 ⟨fun v hv same => ?_, ih⟩
    obtain ⟨input, output⟩ := trail.left_le ascends hv
    rw [same, hnode] at input output
    refine ⟨?_, Std.le_trans output (ascends.output_le_of_visit hw)⟩
    rw [ascends.keeps.left_input hw]
    exact input _ hgather

end

/-! ### The last visit -/

/-- What is left at a node that has been visited is what its last visit left. -/
theorem Trail.last_left (trail : E.Trail visits store) {i : Fin n}
    (visited : ∃ v ∈ visits, v.node = i) :
    ((visits.filter fun v => v.node = i).head?.map Visit.left) = some (store.get i) := by
  induction trail with
  | seed => obtain ⟨v, hv, -⟩ := visited; cases hv
  | @visit visits store k w _ hw ih =>
    obtain ⟨rfl, -⟩ := visit_eq_ok_iff.1 hw
    rw [Store.get_put, List.filter_cons]
    by_cases hi : w.node = i
    · simp [hi]
    · obtain ⟨v, hv, hnode⟩ := visited
      rcases List.mem_cons.1 hv with rfl | hv
      · exact absurd hnode hi
      · simpa [hi] using ih ⟨v, hv, hnode⟩

variable [LE F] [DecidableLE F] [DecidableEq F]

/-- Every node waits or has been visited. -/
def Worked (w : Worklist n F) : Prop := ∀ i, i ∈ w.queue ∨ ∃ v ∈ w.progress.visits, v.node = i

theorem Worked.visitNext {check : Bool} {w next : Worklist n F} (h : Worked w)
    (waits : w.queue ≠ []) (hstep : E.visitNext check w = (next, none)) : Worked next := by
  obtain ⟨j, rest, p, v, dependents, hqueue, hadvance, -, rfl⟩ := visitNext_eq_none waits hstep
  obtain ⟨-, added, hadded, -⟩ := Worklist.exists_added dependents (w.visited j rest p)
  intro i
  rw [hadded, (Worklist.progress_foldl_enqueue dependents _).2]
  have old := h i
  rw [hqueue, List.mem_cons, or_assoc, or_left_comm] at old
  exact old.imp (List.mem_append_left _) (visited_advance hadvance)

/-- Work with a result has visited every node. -/
theorem visited_solve (wired : E.Wired) {settings : Settings} {last : Progress n F} {tally : Tally}
    (h : E.solve settings = (last, .ok tally)) (i : Fin n) : ∃ v ∈ last.visits, v.node = i := by
  obtain ⟨order, horder, ⟨-, rounds⟩ | ⟨-, worklist⟩⟩ := solve_eq_ok h
  · exact forall_of_solveInRounds (Q := fun p i => ∃ v ∈ p.visits, v.node = i)
      (fun hadvance _ => visited_advance hadvance) id (wired.covers horder) rounds i
  · obtain ⟨w, worked, done, rfl, -⟩ := invariant_of_solveByWorklist (I := Worked)
      (fun i => .inl (wired.covers horder i)) (fun w next hw => hw.visitNext) worklist
    exact (worked i).resolve_left (done ▸ List.not_mem_nil)

end FlowFacts.Equations

import Mathlib.Order.SupClosed
import FlowFacts.Proofs.Equations.Growth
import FlowFacts.Proofs.Equations.Settling

/-!
# Least solutions

Equations accumulate if facts are collected by joining them and a transfer function joins a monotone
function of the input to the output (`Equations.Accumulates`). On a trail of such equations facts
only grow (`Trail.growing`), a node that has been visited has the output that its input asks for
(`Trail.output_eq`), and no fact ever exceeds a solution (`Trail.le_of_solves`). So what either
schedule ends with is the least solution (`Equations.isLeast_solve`). Inputs stay within any sets
that the equations do not lead out of (`Trail.input_mem`).
-/

namespace FlowFacts.Equations

variable {n : Nat} {F : Type} {E : Equations n F} {f : Fin n → F → F}

/-- Where the inputs are left alone as well, there is nothing left to check. -/
theorem Grows.honest [LE F] [DecidableLE F] [DecidableEq F] (grows : E.Grows)
    (keeps : E.KeepsInputs) {check : Bool} : E.Honest check :=
  fun hv _ => ⟨keeps.left_input hv, grows.output_eq_of_unchanged hv⟩

theorem get_seed (i : Fin n) :
    E.seed.get i = if i = E.boundary then ⟨E.boundaryFact, E.initial⟩
      else ⟨E.initial, E.initial⟩ := by
  rw [seed, Store.get_put]
  split
  next h => rw [if_pos h.symm]
  next h => rw [if_neg (Ne.symm h)]; exact Vector.getElem_replicate i.isLt

variable [SemilatticeSup F]

/-- Facts are joined, from a least fact on, and a transfer function leaves the input alone, joins a
monotone function of it to the output, and reports exactly whether that changed the output. -/
structure Accumulates (E : Equations n F) (f : Fin n → F → F) : Prop where
  initial_le : ∀ x, E.initial ≤ x
  meet_eq : ∀ fact target, E.meet fact target = target ⊔ fact
  monotone : ∀ i, Monotone (f i)
  transfer_eq : ∀ i facts, (E.transfer i facts).1 = ⟨facts.input, facts.output ⊔ f i facts.input⟩
  report_iff : ∀ i facts, (E.transfer i facts).2 = .changed ↔
    (E.transfer i facts).1.output ≠ facts.output

/-- The equations themselves, of facts that need not come from a schedule. -/
structure Solves (E : Equations n F) (f : Fin n → F → F) (X : Fin n → Sides F) : Prop where
  boundary : (X E.boundary).input = E.boundaryFact
  input : ∀ i ≠ E.boundary, ∀ sources, E.sources i = .ok sources →
    IsLUB ((fun j => (X j).output) '' {j | j ∈ sources}) (X i).input
  output : ∀ i, (X i).output = f i (X i).input

namespace Accumulates

variable (acc : E.Accumulates f)
include acc

theorem meetOver_le_iff {store : Store n F} {sources : List (Fin n)} {x : F} :
    E.meetOver store sources ≤ x ↔ ∀ j ∈ sources, (store.get j).output ≤ x := by
  suffices ∀ start, sources.foldl (fun target j => E.meet (store.get j).output target) start ≤ x ↔
      start ≤ x ∧ ∀ j ∈ sources, (store.get j).output ≤ x from
    (this E.initial).trans (and_iff_right (acc.initial_le x))
  induction sources with
  | nil => simp
  | cons j rest ih =>
    intro start
    rw [List.foldl_cons, ih, acc.meet_eq, sup_le_iff, List.forall_mem_cons, and_assoc]

theorem isLUB_meetOver (store : Store n F) (sources : List (Fin n)) :
    IsLUB ((fun j => (store.get j).output) '' {j | j ∈ sources}) (E.meetOver store sources) := by
  constructor
  · rintro _ ⟨j, hj, rfl⟩
    exact acc.meetOver_le_iff.1 le_rfl j hj
  · intro x hx
    exact acc.meetOver_le_iff.2 fun j hj => hx ⟨j, hj, rfl⟩

theorem left_of_visit {store : Store n F} {i : Fin n} {v : Visit n F}
    (hv : E.visit store i = .ok v) :
    v.left = ⟨v.found.input, (store.get i).output ⊔ f i v.found.input⟩ := by
  obtain ⟨-, -, hfound, htransfer⟩ := visit_eq_ok_iff.1 hv
  rw [← hfound, ← acc.transfer_eq, htransfer]

theorem output_le_put {store : Store n F} {i : Fin n} {v : Visit n F}
    (hv : E.visit store i = .ok v) (j : Fin n) :
    (store.get j).output ≤ ((store.put i v.left).get j).output := by
  refine Store.forall_put (P := fun j s => (store.get j).output ≤ s.output) ?_
    (fun _ _ => le_rfl) j
  rw [acc.left_of_visit hv]
  exact le_sup_left

/-- Accumulating transfer functions keep their contract. -/
theorem grows : E.Grows where
  output_le i facts := by
    rw [acc.transfer_eq]
    exact le_sup_left
  report_iff := acc.report_iff

theorem keepsInputs : E.KeepsInputs := by
  intro i facts
  rw [acc.transfer_eq]

theorem meetsUpward : E.MeetsUpward := by
  refine ⟨acc.initial_le, fun hx hy => ?_⟩
  rw [acc.meet_eq, acc.meet_eq]
  exact sup_le_sup hy hx

theorem honest [DecidableLE F] [DecidableEq F] (check : Bool) : E.Honest check :=
  acc.grows.honest acc.keepsInputs

end Accumulates

/-! ### Facts grow -/

/-- Facts from which a visit can only go up. -/
structure Growing (E : Equations n F) (f : Fin n → F → F) (store : Store n F) : Prop where
  boundary : (store.get E.boundary).input = E.boundaryFact
  input_le : ∀ i ≠ E.boundary, ∀ sources, E.sources i = .ok sources →
    (store.get i).input ≤ E.meetOver store sources
  output_le : ∀ i, (store.get i).output ≤ f i (store.get i).input

theorem Accumulates.growing_seed (acc : E.Accumulates f) : E.Growing f E.seed := by
  refine ⟨by rw [get_seed, if_pos rfl], fun i hi sources _ => ?_, fun i => ?_⟩
  · rw [get_seed, if_neg hi]
    exact acc.initial_le _
  · rw [get_seed]
    split <;> exact acc.initial_le _

namespace Growing

variable {store : Store n F} (grow : E.Growing f store) (acc : E.Accumulates f)
include grow

theorem input_le_of_gather {i : Fin n} {x : F} (h : E.gather store i = .ok x) :
    (store.get i).input ≤ x := by
  obtain ⟨-, rfl⟩ | ⟨hi, sources, hs, rfl⟩ := gather_eq_ok_iff.1 h
  · exact le_rfl
  · exact grow.input_le i hi sources hs

include acc

/-- The output that a visit leaves is what its input asks for: what earlier inputs asked for is in
it, since they were smaller. -/
theorem left_output {i : Fin n} {v : Visit n F} (hv : E.visit store i = .ok v) :
    v.left.output = f i v.left.input := by
  have hgather := (visit_eq_ok_iff.1 hv).2.1
  rw [acc.left_of_visit hv]
  exact sup_eq_right.2 <|
    (grow.output_le i).trans (acc.monotone i (grow.input_le_of_gather hgather))

theorem put {i : Fin n} {v : Visit n F} (hv : E.visit store i = .ok v) :
    E.Growing f (store.put i v.left) := by
  have hgather := (visit_eq_ok_iff.1 hv).2.1
  have hinput : v.left.input = v.found.input := by rw [acc.left_of_visit hv]
  refine ⟨?_, fun j hj sources hs => ?_, ?_⟩
  · rw [Store.get_put]
    split
    next hi =>
      subst hi
      rw [hinput, ← Except.ok.inj ((gather_boundary store).symm.trans hgather), grow.boundary]
    next => exact grow.boundary
  · have own : ((store.put i v.left).get j).input ≤ E.meetOver store sources := by
      rw [Store.get_put]
      split
      next hi =>
        rw [hinput]
        rw [hi, gather_of_ne hj, hs] at hgather
        exact (Except.ok.inj hgather).ge
      next => exact grow.input_le j hj sources hs
    exact own.trans <| acc.meetOver_le_iff.2 fun k hk =>
      (acc.output_le_put hv k).trans (acc.meetOver_le_iff.1 le_rfl k hk)
  · exact Store.forall_put (P := fun j s => s.output ≤ f j s.input)
      (grow.left_output acc hv).le fun j _ => grow.output_le j

end Growing

namespace Trail

variable {visits : List (Visit n F)} {store : Store n F} (h : E.Trail visits store)
  (acc : E.Accumulates f)
include h acc

theorem growing : E.Growing f store := by
  induction h with
  | seed => exact acc.growing_seed
  | visit _ hv ih => exact ih.put acc hv

theorem output_eq {i : Fin n} (visited : ∃ v ∈ visits, v.node = i) :
    (store.get i).output = f i (store.get i).input := by
  induction h generalizing i with
  | seed => obtain ⟨v, hv, -⟩ := visited; cases hv
  | @visit visits store k w trail hw ih =>
    refine Store.forall_put
      (P := fun j s => (∃ v ∈ w :: visits, v.node = j) → s.output = f j s.input)
      (fun _ => (trail.growing acc).left_output acc hw) (fun j hj ⟨v, hv, hnode⟩ => ?_) i visited
    rcases List.mem_cons.1 hv with rfl | hv
    · exact absurd (hnode.symm.trans (visit_eq_ok_iff.1 hw).1) hj
    · exact ih ⟨v, hv, hnode⟩

/-- No schedule, at any time, exceeds a solution. -/
theorem le_of_solves {X : Fin n → Sides F} (hX : E.Solves f X) (i : Fin n) :
    (store.get i).input ≤ (X i).input ∧ (store.get i).output ≤ (X i).output := by
  refine h.invariant (P := fun i s => s.input ≤ (X i).input ∧ s.output ≤ (X i).output)
    (fun i => ?_) (fun store i v below hv => ?_) i
  · rw [get_seed]
    split
    next hi => exact ⟨(hi ▸ hX.boundary).ge, acc.initial_le _⟩
    next => exact ⟨acc.initial_le _, acc.initial_le _⟩
  · have hinput : v.found.input ≤ (X i).input := by
      obtain ⟨-, hx⟩ | ⟨hi, sources, hs, hx⟩ := gather_eq_ok_iff.1 (visit_eq_ok_iff.1 hv).2.1
      · exact hx ▸ (below i).1
      · rw [hx, acc.meetOver_le_iff]
        exact fun j hj => (below j).2.trans ((hX.input i hi sources hs).1 ⟨j, hj, rfl⟩)
    rw [acc.left_of_visit hv]
    exact ⟨hinput, sup_le (below i).2 (hX.output i ▸ acc.monotone i hinput)⟩

end Trail

/-! ### Where facts come from -/

/-- Sets of facts, one for the input of each node, which hold what comes in from outside and which
joins and transfer functions do not lead out of. -/
structure Closed (E : Equations n F) (f : Fin n → F → F) (T : Fin n → Set F) : Prop where
  boundary : E.boundaryFact ∈ T E.boundary
  initial : ∀ i ≠ E.boundary, E.initial ∈ T i
  sup : ∀ i, SupClosed (T i)
  step : ∀ i ≠ E.boundary, ∀ sources, E.sources i = .ok sources →
    ∀ j ∈ sources, ∀ x ∈ T j, f j x ∈ T i

section

variable {T : Fin n → Set F} (acc : E.Accumulates f) (closed : E.Closed f T)
include acc closed

theorem Closed.meetOver_mem {store : Store n F} {i : Fin n} (hi : i ≠ E.boundary)
    {sources : List (Fin n)} (outputs : ∀ j ∈ sources, (store.get j).output ∈ T i) :
    E.meetOver store sources ∈ T i := by
  refine List.foldlRecOn sources _ (closed.initial i hi) fun target htarget j hj => ?_
  rw [acc.meet_eq]
  exact closed.sup i htarget (outputs j hj)

/-- No schedule, at any time, comes upon an input from outside its set. -/
theorem Trail.input_mem {visits : List (Visit n F)} {store : Store n F} (h : E.Trail visits store)
    (i : Fin n) : (store.get i).input ∈ T i := by
  -- An output has no set of its own: it is in those of all the nodes that it meets in.
  refine (h.invariant (P := fun i facts => facts.input ∈ T i ∧ ∀ j ≠ E.boundary, ∀ sources,
    E.sources j = .ok sources → i ∈ sources → facts.output ∈ T j) (fun i => ?_)
    (fun store i v within hv => ?_) i).1
  · rw [get_seed]
    split
    next hi => exact ⟨hi ▸ closed.boundary, fun j hj _ _ _ => closed.initial j hj⟩
    next hi => exact ⟨closed.initial i hi, fun j hj _ _ _ => closed.initial j hj⟩
  · have input : v.found.input ∈ T i := by
      obtain ⟨-, hx⟩ | ⟨hi, sources, hs, hx⟩ := gather_eq_ok_iff.1 (visit_eq_ok_iff.1 hv).2.1
      · exact hx ▸ (within i).1
      · exact hx ▸ closed.meetOver_mem acc hi fun j hj => (within j).2 i hi sources hs hj
    rw [acc.left_of_visit hv]
    exact ⟨input, fun j hj sources hs hi =>
      closed.sup j ((within i).2 j hj sources hs hi) (closed.step j hj sources hs i hi _ input)⟩

end

/-- Under either schedule, the facts in the end solve the equations, and no solution is smaller. -/
theorem isLeast_solve [DecidableLE F] [DecidableEq F] (acc : E.Accumulates f) (wired : E.Wired)
    {settings : Settings} {last : Progress n F} {tally : Tally}
    (h : E.solve settings = (last, .ok tally)) :
    E.Solves f last.store.get ∧ ∀ X, E.Solves f X → ∀ i,
      (last.store.get i).input ≤ (X i).input ∧ (last.store.get i).output ≤ (X i).output := by
  have trail := trail_of_solve h
  have settled := settled_solve (acc.honest _) wired h
  refine ⟨⟨(trail.growing acc).boundary, fun i hi sources hs => ?_, fun i => ?_⟩, fun X hX =>
    trail.le_of_solves acc hX⟩
  · have collected : E.gather last.store i = .ok (last.store.get i).input := (settled i).1
    rw [gather_of_ne hi, hs] at collected
    exact Except.ok.inj collected ▸ acc.isLUB_meetOver last.store sources
  · exact trail.output_eq acc (settled i).2

end FlowFacts.Equations

import FlowFacts.Proofs.Equations.Trail

/-!
# What holds when a schedule ends

A node is settled when it has been visited and its input is what the present outputs of its sources
make of it. Under both schedules every node is settled in the end (`Equations.settled_solve`): a
pass without a change settles the nodes it visits, and a node that does not wait in the queue is
settled. All that this asks of the transfer functions is that they leave the inputs alone and do not
keep quiet about a change (`Equations.Honest`); what collects facts and what computes them are
otherwise arbitrary functions. After rounds every node is steady as well: its transfer function has
nothing left to do (`Equations.steady_solve`).
-/

namespace FlowFacts

namespace Equations

variable {n : Nat} {F : Type} {E : Equations n F}

/-- The input of the node is what its sources make of it. The boundary always has it so. -/
def Collected (E : Equations n F) (store : Store n F) (i : Fin n) : Prop :=
  E.gather store i = .ok (store.get i).input

/-- The node has been visited, and its input is what its sources make of it. -/
def Settled (E : Equations n F) (p : Progress n F) (i : Fin n) : Prop :=
  E.Collected p.store i ∧ ∃ v ∈ p.visits, v.node = i

/-- The equations speak of all nodes, and of each edge from both of its ends. -/
structure Wired (E : Equations n F) : Prop where
  covers : ∀ {order}, E.order = .ok order → ∀ i, i ∈ order
  linked : ∀ {i j sources dependents}, E.sources j = .ok sources →
    E.dependents i = .ok dependents → i ∈ sources → j ∈ dependents

theorem Wired.length_order (wired : E.Wired) {order : List (Fin n)} (h : E.order = .ok order)
    (nodup : order.Nodup) : order.length = n := by
  have perm : order.Perm (List.finRange n) :=
    (List.perm_ext_iff_of_nodup nodup (List.nodup_finRange n)).2 fun i => by simp [wired.covers h i]
  rw [perm.length_eq, List.length_finRange]

/-- A visit makes its own node collected, and keeps the others so, save those that draw on an output
that it changed. -/
theorem collected_put {store : Store n F} {i j : Fin n} {v : Visit n F}
    (hv : E.visit store i = .ok v) (kept : v.left.input = v.found.input)
    (apart : ∀ sources, E.sources j = .ok sources → i ∈ sources → v.left.output = v.found.output)
    (h : j = i ∨ E.Collected store j) : E.Collected (store.put i v.left) j := by
  obtain ⟨-, hgather, hfound, -⟩ := visit_eq_ok_iff.1 hv
  have same : E.gather (store.put i v.left) j = E.gather store j := by
    refine gather_congr (fun hj => ?_) fun _ sources hs k hk => ?_
    · rw [Store.get_put]
      split
      next hi =>
        subst hi hj
        rw [kept]
        exact Except.ok.inj (hgather.symm.trans (gather_boundary store))
      next => rfl
    · rw [Store.get_put]
      split
      next hi => exact (apart sources hs (hi ▸ hk)).trans (hi ▸ hfound)
      next => rfl
  rw [Collected, same, Store.get_put]
  split
  next hi => rw [← hi, hgather, kept]
  next hi => exact h.resolve_left (Ne.symm hi)

/-- Transfer functions leave the inputs alone. -/
def KeepsInputs (E : Equations n F) : Prop := ∀ i facts, (E.transfer i facts).1.input = facts.input

theorem KeepsInputs.left_input (keeps : E.KeepsInputs) {store : Store n F} {i : Fin n}
    {v : Visit n F} (hv : E.visit store i = .ok v) : v.left.input = v.found.input := by
  obtain ⟨-, -, -, htransfer⟩ := visit_eq_ok_iff.1 hv
  rw [← keeps i v.found, htransfer]

/-- Where the inputs are left alone, what came in at the boundary stays there. -/
theorem Trail.boundary_input {visits : List (Visit n F)} {store : Store n F}
    (h : E.Trail visits store) (keeps : E.KeepsInputs) :
    (store.get E.boundary).input = E.boundaryFact := by
  refine h.invariant (P := fun i facts => i = E.boundary → facts.input = E.boundaryFact)
    (fun i hi => ?_) (fun store i v before hv hi => ?_) E.boundary rfl
  · rw [Equations.seed, hi, Store.get_put, if_pos rfl]
  · have hgather := (visit_eq_ok_iff.1 hv).2.1
    rw [hi, gather_boundary] at hgather
    rw [keeps.left_input hv, ← Except.ok.inj hgather]
    exact before _ rfl

/-- What is there at a node that has been visited is what its transfer function made of
something. -/
theorem Trail.exists_found {visits : List (Visit n F)} {store : Store n F}
    (h : E.Trail visits store) {i : Fin n} (visited : ∃ v ∈ visits, v.node = i) :
    ∃ facts, (E.transfer i facts).1 = store.get i := by
  induction h generalizing i with
  | seed => obtain ⟨v, hv, -⟩ := visited; cases hv
  | @visit visits store k w _ hw ih =>
    obtain ⟨hnode, -, -, htransfer⟩ := visit_eq_ok_iff.1 hw
    refine Store.forall_put
      (P := fun j s => (∃ v ∈ w :: visits, v.node = j) → ∃ facts, (E.transfer j facts).1 = s)
      (fun _ => ⟨w.found, congrArg Prod.fst htransfer⟩) (fun j hj ⟨v, hv, hvisited⟩ => ?_) i visited
    rcases List.mem_cons.1 hv with rfl | hv
    · exact absurd (hvisited.symm.trans hnode) hj
    · exact ih ⟨v, hv, hvisited⟩

variable [LE F] [DecidableLE F] [DecidableEq F]

/-- A visit that passed its checks kept the input, and if it changed the output, it said so. -/
def Honest (E : Equations n F) (check : Bool) : Prop :=
  ∀ {store i v}, E.visit store i = .ok v → (check = true → v.misstep? = none) →
    v.left.input = v.found.input ∧ (v.report = .unchanged → v.left.output = v.found.output)

/-- Where the inputs are left alone, the checks see to the rest. -/
theorem KeepsInputs.honest (keeps : E.KeepsInputs) : E.Honest true := by
  intro store i v hv clean
  refine ⟨keeps.left_input hv, fun quiet => Decidable.byContradiction fun changed => ?_⟩
  have sound := Visit.misstep?_eq_none_iff.1 (clean rfl)
  cases quiet.symm.trans (sound.report_iff.2 changed)

theorem visited_advance {check : Bool} {p next : Progress n F} {i j : Fin n} {v : Visit n F}
    (hadvance : E.advance check p i = (next, .ok v)) (h : j = i ∨ ∃ u ∈ p.visits, u.node = j) :
    ∃ u ∈ next.visits, u.node = j := by
  obtain ⟨hv, -, -, hvisits⟩ := advance_eq_ok hadvance
  rw [hvisits]
  rcases h with rfl | ⟨u, hu, hnode⟩
  · exact ⟨v, List.mem_cons_self, (visit_eq_ok_iff.1 hv).1⟩
  · exact ⟨u, List.mem_cons_of_mem _ hu, hnode⟩

theorem settled_advance {check : Bool} {p next : Progress n F} {i j : Fin n} {v : Visit n F}
    (honest : E.Honest check) (hadvance : E.advance check p i = (next, .ok v))
    (apart : ∀ sources, E.sources j = .ok sources → i ∈ sources → v.report = .unchanged)
    (h : j = i ∨ E.Settled p j) : E.Settled next j := by
  obtain ⟨hv, clean, hstore, -⟩ := advance_eq_ok hadvance
  obtain ⟨kept, quiet⟩ := honest hv clean
  refine ⟨?_, visited_advance hadvance (h.imp_right And.right)⟩
  rw [hstore]
  exact collected_put hv kept (fun sources hs hi => quiet (apart sources hs hi))
    (h.imp_right And.left)

/-! ### Rounds -/

section Quiet

variable {check : Bool} {Q : Progress n F → Fin n → Prop}
  (quiet : ∀ {p next i j v}, E.advance check p i = (next, .ok v) → v.report = .unchanged →
    j = i ∨ Q p j → Q next j)
include quiet

/-- What a visit without a change gives its own node and takes from none, a sweep that reports no
change gives every node it visits and takes from none. -/
theorem forall_of_sweep {order : List (Fin n)} {p q : Progress n F} {report : Change}
    (h : E.sweep check order p report = (q, .ok .unchanged)) :
    report = .unchanged ∧ ∀ j, j ∈ order ∨ Q p j → Q q j := by
  induction order generalizing p report with
  | nil =>
    cases h
    exact ⟨rfl, fun j hj => hj.resolve_left List.not_mem_nil⟩
  | cons i rest ih =>
    unfold sweep at h
    split at h
    next => cases h
    next next v hadvance =>
      obtain ⟨hreport, hrest⟩ := ih h
      obtain ⟨rfl, hv⟩ := Change.or_eq_unchanged_iff.1 hreport
      refine ⟨rfl, fun j hj => hrest j ?_⟩
      rw [List.mem_cons, or_assoc, or_left_comm] at hj
      exact hj.imp_right (quiet hadvance hv)

/-- When rounds end with a result, the last of them was quiet, and it visited every node. -/
theorem forall_of_solveInRounds (record : ∀ {p number report j}, Q p j →
      Q (p.record (.passed number report)) j) {limit? : Option Nat} {order : List (Fin n)}
    (covers : ∀ i, i ∈ order) {last : Progress n F} {tally : Tally}
    (h : E.solveInRounds check limit? order = (last, .ok tally)) (i : Fin n) : Q last i := by
  -- The pass that settles the rounds is quiet, whatever those before it did.
  have keep : ∀ s next : Rounds n F, (s.settled = true → ∀ i, Q s.progress i) → s.settled = false →
      E.pass check order s = (next, none) → next.settled = true → ∀ i, Q next.progress i := by
    intro s next _ _ hstep hsettled i
    obtain ⟨p, report, hsweep, rfl⟩ := pass_eq_none hstep
    cases report with
    | changed => cases hsettled
    | unchanged => exact record ((forall_of_sweep quiet hsweep).2 i (.inl (covers i)))
  obtain ⟨s, inv, settled, rfl, -⟩ := invariant_of_solveInRounds nofun keep h
  exact inv settled i

end Quiet

theorem settled_solveInRounds {check : Bool} (honest : E.Honest check) {limit? : Option Nat}
    {order : List (Fin n)} (covers : ∀ i, i ∈ order) {last : Progress n F} {tally : Tally}
    (h : E.solveInRounds check limit? order = (last, .ok tally)) (i : Fin n) :
    E.Settled last i :=
  forall_of_solveInRounds (fun hadvance hv => settled_advance honest hadvance fun _ _ _ => hv)
    (fun settled => settled) covers h i

/-- The transfer function leaves the facts of the node as they are, and says so. -/
def Steady (E : Equations n F) (store : Store n F) (i : Fin n) : Prop :=
  E.transfer i (store.get i) = (store.get i, .unchanged)

omit [LE F] [DecidableLE F] [DecidableEq F] in
theorem steady_put {store : Store n F} {i j : Fin n} {v : Visit n F}
    (hv : E.visit store i = .ok v) (same : v.left = v.found) (report : v.report = .unchanged)
    (h : j = i ∨ E.Steady store j) : E.Steady (store.put i v.left) j := by
  rw [Steady, Store.get_put]
  split
  next hi =>
    rw [← hi, same, (visit_eq_ok_iff.1 hv).2.2.2, same, report]
  next hi => exact h.resolve_left (Ne.symm hi)

theorem steady_solveInRounds {check : Bool} (honest : E.Honest check) {limit? : Option Nat}
    {order : List (Fin n)} (covers : ∀ i, i ∈ order) {last : Progress n F} {tally : Tally}
    (h : E.solveInRounds check limit? order = (last, .ok tally)) (i : Fin n) :
    E.Steady last.store i := by
  refine forall_of_solveInRounds (Q := fun p i => E.Steady p.store i)
    (fun hadvance hv steady => ?_) (fun steady => steady) covers h i
  obtain ⟨hvisit, clean, hstore, -⟩ := advance_eq_ok hadvance
  obtain ⟨input, output⟩ := honest hvisit clean
  rw [hstore]
  exact steady_put hvisit (Sides.ext input (output hv)) hv steady

/-! ### The worklist -/

end Equations

/-- Putting nodes in the queue keeps those that wait, and makes the given ones wait as well. -/
theorem Worklist.queue_foldl_enqueue {n : Nat} {F : Type} (dependents : List (Fin n))
    {w : Worklist n F} (queued : ∀ i, w.queued.get i = true → i ∈ w.queue) :
    (∀ i, (dependents.foldl enqueue w).queued.get i = true →
      i ∈ (dependents.foldl enqueue w).queue) ∧
      ∀ i, i ∈ w.queue ∨ i ∈ dependents → i ∈ (dependents.foldl enqueue w).queue := by
  induction dependents generalizing w with
  | nil => exact ⟨queued, fun i hi => hi.resolve_right List.not_mem_nil⟩
  | cons d rest ih =>
    have henqueue : (∀ i, (w.enqueue d).queued.get i = true → i ∈ (w.enqueue d).queue) ∧
        ∀ i, i ∈ w.queue ∨ i = d → i ∈ (w.enqueue d).queue := by
      unfold enqueue
      split
      next hd => exact ⟨queued, fun i hi => hi.elim id fun hi => hi ▸ queued d hd⟩
      next =>
        refine ⟨fun i hi => ?_, fun i hi => by simpa using hi⟩
        simp only [get_set] at hi
        split at hi
        next same => simp [same]
        next => exact List.mem_append_left _ (queued i hi)
    obtain ⟨hqueued, hmem⟩ := ih henqueue.1
    refine ⟨hqueued, fun i hi => hmem i ?_⟩
    rw [List.mem_cons, ← or_assoc] at hi
    exact hi.imp_left (henqueue.2 i)

namespace Equations

variable {n : Nat} {F : Type} {E : Equations n F}

/-- Which nodes wait is known, and those that do not wait are settled. -/
structure Consistent (E : Equations n F) (w : Worklist n F) : Prop where
  queued : ∀ i, w.queued.get i = true → i ∈ w.queue
  settled : ∀ i, i ∉ w.queue → E.Settled w.progress i

theorem consistent_firstVisit {order : List (Fin n)} (covers : ∀ i, i ∈ order) :
    E.Consistent (E.firstVisit order) :=
  ⟨fun i _ => covers i, fun i hi => absurd (covers i) hi⟩

variable [LE F] [DecidableLE F] [DecidableEq F]

/-- A visit from the queue keeps the worklist consistent: its node no longer waits and is settled,
and the nodes that it unsettles are among its dependents, which wait from now on. -/
theorem Consistent.visitNext {check : Bool} (honest : E.Honest check) (wired : E.Wired)
    {w next : Worklist n F} (h : E.Consistent w) (waits : w.queue ≠ [])
    (hstep : E.visitNext check w = (next, none)) : E.Consistent next := by
  obtain ⟨i, rest, p, v, added, hqueue, hadvance, hadded, rfl⟩ := visitNext_eq_none waits hstep
  have queued : ∀ j, (w.visited i rest p).queued.get j = true → j ∈ rest := by
    intro j hj
    rw [Worklist.visited, get_set] at hj
    split at hj
    next => cases hj
    next hij => exact (List.mem_cons.1 (hqueue ▸ h.queued j hj)).resolve_left (Ne.symm hij)
  have settled : ∀ j, j ∉ rest → j = i ∨ E.Settled w.progress j := by
    intro j hj
    by_cases hji : j = i
    · exact .inl hji
    · exact .inr (h.settled j (by simp [hqueue, hji, hj]))
  have after := Worklist.queue_foldl_enqueue added queued
  obtain ⟨hstore, hvisits⟩ := Worklist.progress_foldl_enqueue added (w.visited i rest p)
  refine ⟨after.1, fun j hj => ?_⟩
  have hrest : j ∉ rest := fun hmem => hj (after.2 j (.inl hmem))
  have apart : ∀ sources, E.sources j = .ok sources → i ∈ sources → v.report = .unchanged := by
    intro sources hs hi
    obtain ⟨quiet, -⟩ | ⟨-, hd⟩ := hadded
    · exact quiet
    · exact absurd (after.2 j (.inr (wired.linked hs hd hi))) hj
  rw [Settled, hstore, hvisits]
  exact settled_advance honest hadvance apart (settled j hrest)

theorem settled_solveByWorklist {check : Bool} (honest : E.Honest check) (wired : E.Wired)
    {limit? : Option Nat} {order : List (Fin n)} (covers : ∀ i, i ∈ order) {last : Progress n F}
    {tally : Tally} (h : E.solveByWorklist check limit? order = (last, .ok tally)) (i : Fin n) :
    E.Settled last i := by
  obtain ⟨w, consistent, done, rfl, -⟩ := invariant_of_solveByWorklist (I := E.Consistent)
    (consistent_firstVisit covers) (fun w next hw => hw.visitNext honest wired) h
  exact consistent.settled i (done ▸ List.not_mem_nil)

/-- When equations are solved, under either schedule, every node is settled. -/
theorem settled_solve {settings : Settings} (honest : E.Honest settings.checkTransfer)
    (wired : E.Wired) {last : Progress n F} {tally : Tally}
    (h : E.solve settings = (last, .ok tally)) (i : Fin n) : E.Settled last i := by
  obtain ⟨order, horder, ⟨-, rounds⟩ | ⟨-, worklist⟩⟩ := solve_eq_ok h
  · exact settled_solveInRounds honest (wired.covers horder) rounds i
  · exact settled_solveByWorklist honest wired (wired.covers horder) worklist i

theorem steady_solve {settings : Settings} (honest : E.Honest settings.checkTransfer)
    (wired : E.Wired) {last : Progress n F} {tally : Tally}
    (h : E.solve settings = (last, .ok tally)) (strategy : settings.strategy = .roundRobin)
    (i : Fin n) : E.Steady last.store i := by
  obtain ⟨order, horder, ⟨-, rounds⟩ | ⟨worklist, -⟩⟩ := solve_eq_ok h
  · exact steady_solveInRounds honest (wired.covers horder) rounds i
  · rw [strategy] at worklist
    cases worklist

end Equations

end FlowFacts

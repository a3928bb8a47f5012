import FlowFacts.Proofs.Equations.Accumulation
import FlowFacts.Proofs.Equations.Termination

/-!
# Facts that are ready in stages

A property of outputs may come in stages, such that a node gets to the next stage when it is visited
while all nodes are at the present one, and those before it in the order of visits are at the next
one already. If a visit has nothing to add once the last stage is reached (`Equations.Staged`), then
a pass brings every node from one stage to the next, and rounds are over one pass after the last
stage (`Equations.Staged.solveInRounds_ends`).

With the worklist there is no telling which nodes are visited before others, except at first, when
all nodes wait in order. But the visits fall into phases, in each of which a node is visited once at
most: the nodes that are put in the queue during a phase wait for the next one (`Equations.Phase`).
At the end of a phase every node has come to the next stage, those that were not visited because
there was nothing new for them (`Equations.Staged.solveByWorklist_ends`).
-/

namespace FlowFacts

/-! ### Which nodes wait -/

namespace Worklist

variable {n : Nat} {F : Type} {w : Worklist n F}

/-- No node waits twice, and those that wait are known to. -/
structure Exact (w : Worklist n F) : Prop where
  nodup : w.queue.Nodup
  waits : ∀ i ∈ w.queue, w.queued.get i = true

theorem Exact.length_queue_le (h : w.Exact) : w.queue.length ≤ n := by
  simpa using h.nodup.length_le_card

theorem exact_firstVisit {E : Equations n F} {order : List (Fin n)} (nodup : order.Nodup) :
    (E.firstVisit order).Exact := by
  suffices ∀ mask : Vector Bool n, ∀ i, i ∈ order ∨ mask.get i = true →
      (order.foldl (fun mask i => mask.set i.val true i.isLt) mask).get i = true from
    ⟨nodup, fun i hi => this _ i (.inl hi)⟩
  clear nodup
  induction order with
  | nil => exact fun mask i hi => hi.resolve_left List.not_mem_nil
  | cons j rest ih =>
    intro mask i hi
    refine ih _ i ?_
    rw [get_set]
    split
    next => exact .inr rfl
    next apart =>
      rw [List.mem_cons, or_assoc] at hi
      exact hi.resolve_left (Ne.symm apart)

theorem Exact.visited (h : w.Exact) {i : Fin n} {rest : List (Fin n)} (hqueue : w.queue = i :: rest)
    (p : Progress n F) : (w.visited i rest p).Exact := by
  obtain ⟨hi, nodup⟩ := List.nodup_cons.1 (hqueue ▸ h.nodup)
  refine ⟨nodup, fun j hj => ?_⟩
  have apart : i ≠ j := by
    rintro rfl
    exact hi hj
  rw [Worklist.visited, get_set, if_neg apart]
  exact h.waits j (hqueue ▸ List.mem_cons_of_mem i hj)

theorem Exact.enqueue (h : w.Exact) (i : Fin n) : (w.enqueue i).Exact := by
  unfold Worklist.enqueue
  split
  next => exact h
  next new =>
    have hi : i ∉ w.queue := fun hi => new (h.waits i hi)
    refine ⟨List.nodup_append_comm.1 (List.nodup_cons.2 ⟨hi, h.nodup⟩), fun j hj => ?_⟩
    rw [get_set]
    split
    next => rfl
    next apart =>
      exact h.waits j ((List.mem_append.1 hj).resolve_right (by simpa using Ne.symm apart))

theorem Exact.foldl_enqueue (h : w.Exact) (dependents : List (Fin n)) :
    (dependents.foldl Worklist.enqueue w).Exact :=
  List.foldlRecOn dependents _ h fun _ h i _ => h.enqueue i

theorem Exact.visitNext [LE F] [DecidableLE F] [DecidableEq F] {E : Equations n F} {check : Bool}
    {next : Worklist n F} (h : w.Exact) (waits : w.queue ≠ [])
    (hstep : E.visitNext check w = (next, none)) : next.Exact := by
  obtain ⟨i, rest, p, v, added, hqueue, -, -, rfl⟩ := Equations.visitNext_eq_none waits hstep
  exact (h.visited hqueue p).foldl_enqueue added

end Worklist

namespace Equations

variable {n : Nat} {F : Type} [SemilatticeSup F] {E : Equations n F} {f : Fin n → F → F}
  {before : Nat → Fin n → Fin n → Prop} {P : Nat → Fin n → F → Prop} {stages : Nat}

/-- Outputs come to a property in stages. A visit takes its node to the next stage, if no node lags
behind and those that have to be before it at this stage are there already. At the last stage there
is nothing to add. -/
structure Staged (E : Equations n F) (f : Fin n → F → F) (before : Nat → Fin n → Fin n → Prop)
    (P : Nat → Fin n → F → Prop) (stages : Nat) : Prop where
  start : ∀ i x, P 0 i x
  mono : ∀ {k i x y}, x ≤ y → P k i x → P k i y
  step : ∀ {visits store k i x}, E.Trail visits store → (∀ j, P k j (store.get j).output) →
    (∀ j, before k j i → P (k + 1) j (store.get j).output) → E.gather store i = .ok x →
      P (k + 1) i (f i x)
  done : ∀ {visits store}, E.Trail visits store → (∀ j, P stages j (store.get j).output) →
    ∀ {i x}, E.gather store i = .ok x → f i x ≤ (store.get i).output

/-- Each node comes in the list after those that have to be before it at this stage, unless they
have come to the next one already. -/
def InTurn (before : Nat → Fin n → Fin n → Prop) (P : Nat → Fin n → F → Prop) (k : Nat)
    (nodes : List (Fin n)) (store : Store n F) : Prop :=
  ∀ front i back, nodes = front ++ i :: back → ∀ j, before k j i →
    j ∈ front ∨ P (k + 1) j (store.get j).output

section

variable {store store' : Store n F} {k : Nat} {i : Fin n} {rest : List (Fin n)}

omit [SemilatticeSup F]

theorem InTurn.head (turn : InTurn before P k (i :: rest) store) :
    ∀ j, before k j i → P (k + 1) j (store.get j).output := fun j hj =>
  (turn [] i rest rfl j hj).resolve_left List.not_mem_nil

/-- Once the first node has come to the next stage, the others are still in turn. -/
theorem InTurn.tail (turn : InTurn before P k (i :: rest) store)
    (kept : ∀ j, P (k + 1) j (store.get j).output → P (k + 1) j (store'.get j).output)
    (risen : P (k + 1) i (store'.get i).output) : InTurn before P k rest store' := by
  intro front i' back hrest j hj
  rcases turn (i :: front) i' back (congrArg (i :: ·) hrest) j hj with hmem | old
  · rcases List.mem_cons.1 hmem with rfl | hmem
    · exact .inr risen
    · exact .inl hmem
  · exact .inr (kept j old)

end

/-- After so many passes every node has come to the stage of that number, and only the pass that
confirms the last stage goes beyond it. -/
structure AtStage (E : Equations n F) (P : Nat → Fin n → F → Prop) (stages : Nat) (s : Rounds n F) :
    Prop where
  follows : E.Follows s.progress
  reached : ∀ j, P s.tally.passes j (s.progress.store.get j).output
  within : s.tally.passes ≤ stages + if s.settled then 1 else 0

namespace Staged

variable (staged : E.Staged f before P stages) (acc : E.Accumulates f)
include staged acc

theorem put {store : Store n F} {k : Nat} {i j : Fin n} {v : Visit n F}
    (hv : E.visit store i = .ok v) (h : P k j (store.get j).output) :
    P k j ((store.put i v.left).get j).output :=
  staged.mono (acc.output_le_put hv j) h

theorem left {visits : List (Visit n F)} {store : Store n F} {k : Nat} {i : Fin n} {v : Visit n F}
    (trail : E.Trail visits store) (hv : E.visit store i = .ok v)
    (all : ∀ j, P k j (store.get j).output)
    (ahead : ∀ j, before k j i → P (k + 1) j (store.get j).output) : P (k + 1) i v.left.output := by
  rw [acc.left_of_visit hv]
  exact staged.mono le_sup_right (staged.step trail all ahead (visit_eq_ok_iff.1 hv).2.1)

theorem quiet {visits : List (Visit n F)} {store : Store n F} {i : Fin n} {v : Visit n F}
    (trail : E.Trail visits store) (all : ∀ j, P stages j (store.get j).output)
    (hv : E.visit store i = .ok v) : v.report = .unchanged := by
  obtain ⟨-, hgather, hfound, -⟩ := visit_eq_ok_iff.1 hv
  cases hreport : v.report with
  | unchanged => rfl
  | changed =>
    refine absurd ?_ ((acc.grows.report_of_visit hv).1 hreport)
    rw [acc.left_of_visit hv, hfound]
    exact sup_eq_left.2 (staged.done trail all hgather)

variable [DecidableLE F] [DecidableEq F] {check : Bool}

/-! ### Rounds -/

/-- A sweep takes the nodes that it visits to the next stage, if those before a node have been
visited or are there already. At the last stage it reports nothing new. -/
theorem sweep {order : List (Fin n)} {p q : Progress n F} {report report' : Change} {k : Nat}
    (follows : E.Follows p) (all : ∀ j, P k j (p.store.get j).output)
    (turn : InTurn before P k order p.store)
    (h : E.sweep check order p report = (q, .ok report')) :
    (∀ j, P k j (q.store.get j).output) ∧
      (∀ j, j ∈ order ∨ P (k + 1) j (p.store.get j).output → P (k + 1) j (q.store.get j).output) ∧
      (k = stages → report' = report) := by
  induction order generalizing p report with
  | nil =>
    cases h
    exact ⟨all, fun j hj => hj.resolve_left List.not_mem_nil, fun _ => rfl⟩
  | cons i rest ih =>
    unfold Equations.sweep at h
    split at h
    next => cases h
    next next v hadvance =>
      obtain ⟨hv, -, hstore, -⟩ := advance_eq_ok hadvance
      have kept : ∀ k j, P k j (p.store.get j).output → P k j (next.store.get j).output := by
        rw [hstore]
        exact fun k j => staged.put acc hv
      have risen : P (k + 1) i (next.store.get i).output := by
        rw [hstore, Store.get_put, if_pos rfl]
        exact staged.left acc follows hv all turn.head
      obtain ⟨all', risen', silent⟩ :=
        ih (follows.advance hadvance) (fun j => kept k j (all j)) (turn.tail (kept (k + 1)) risen) h
      refine ⟨all', fun j hj => risen' j ?_, fun hk => ?_⟩
      · rcases hj with hmem | old
        · rcases List.mem_cons.1 hmem with rfl | hmem
          · exact .inr risen
          · exact .inl hmem
        · exact .inr (kept _ _ old)
      · subst hk
        rw [silent rfl, staged.quiet acc follows all hv]
        cases report <;> rfl

/-- Every pass goes through and takes the nodes from the stage of its number to the next one. -/
theorem exists_pass (complete : E.Complete) {order : List (Fin n)} (covers : ∀ i, i ∈ order)
    (ahead : ∀ k front i back, order = front ++ i :: back → ∀ j, before k j i → j ∈ front)
    {s : Rounds n F} (h : E.AtStage P stages s) (unsettled : s.settled = false) :
    ∃ next, E.pass check order s = (next, none) ∧ E.AtStage P stages next ∧
      s.tally.passes < next.tally.passes := by
  obtain ⟨q, report, hsweep, -⟩ :=
    Equations.exists_sweep complete acc.grows check order s.progress .unchanged
  obtain ⟨-, risen, silent⟩ := staged.sweep acc h.follows h.reached
    (fun front i back horder j hj => .inl (ahead _ front i back horder j hj)) hsweep
  have hpass : E.pass check order s = (⟨q.record (.passed (s.tally.passes + 1) report),
      ⟨s.tally.passes + 1, s.tally.visits + order.length⟩, report.isUnchanged⟩, none) := by
    rw [pass, hsweep]
  refine ⟨_, hpass, ⟨h.follows.pass hpass, fun j => risen j (.inl (covers j)), ?_⟩,
    Nat.lt_succ_self _⟩
  have within : s.tally.passes ≤ stages := by simpa [unsettled] using h.within
  change s.tally.passes + 1 ≤ stages + if report.isUnchanged then 1 else 0
  rcases Nat.lt_or_eq_of_le within with earlier | last
  · omega
  · rw [silent last]
    exact Nat.succ_le_succ within

/-- Rounds in an order that has the nodes before each node earlier end one pass after the last
stage, unless they are not allowed so many passes. -/
theorem solveInRounds_ends (check : Bool) (complete : E.Complete) {order : List (Fin n)}
    (covers : ∀ i, i ∈ order)
    (ahead : ∀ k front i back, order = front ++ i :: back → ∀ j, before k j i → j ∈ front)
    (limit? : Option Nat) :
    ∃ last outcome, E.solveInRounds check limit? order = (last, outcome) ∧
      ((∃ tally, outcome = .ok tally ∧ tally.passes ≤ stages + 1) ∨
        (∃ limit, limit? = some limit ∧ outcome = .error (.limitReached limit) ∧
          limit < stages + 1) ∨
        outcome = .error .countExhausted ∧ countablePasses n < stages + 1) := by
  have bounded : ∀ s : Rounds n F, E.AtStage P stages s → s.tally.passes ≤ stages + 1 := by
    rintro s ⟨-, -, within⟩
    split at within <;> omega
  have first : E.AtStage P stages E.firstRound :=
    ⟨follows_start, fun j => staged.start j _, Nat.zero_le _⟩
  obtain ⟨last, outcome, hsolve, hlast, ends⟩ := solveInRounds_of_bounded check bounded first
    (fun _ => staged.exists_pass acc complete covers ahead) limit?
  exact ⟨last.progress, outcome, hsolve,
    ends.imp_left fun hok => ⟨last.tally, hok, bounded last hlast⟩⟩

end Staged

/-! ### The worklist -/

/-- A phase of the worklist. Every node has come to the stage of its number, and all but the current
ones, which the phase still has to visit, have come to the next one. The last phase adds nothing to
the queue. -/
structure Phase (E : Equations n F) (before : Nat → Fin n → Fin n → Prop)
    (P : Nat → Fin n → F → Prop) (stages k : Nat) (current later : List (Fin n))
    (w : Worklist n F) : Prop where
  queue : w.queue = current ++ later
  within : k ≤ stages
  last : k = stages → later = []
  reached : ∀ j, P k j (w.progress.store.get j).output
  ahead : ∀ j, j ∉ current → P (k + 1) j (w.progress.store.get j).output
  turn : InTurn before P k current w.progress.store
  visits : w.visits + current.length ≤ n * (k + 1)

omit [SemilatticeSup F] in
theorem Phase.visits_le {k : Nat} {current later : List (Fin n)} {w : Worklist n F}
    (h : E.Phase before P stages k current later w) : w.visits ≤ n * (stages + 1) :=
  calc w.visits ≤ w.visits + current.length := Nat.le_add_right _ _
    _ ≤ n * (k + 1) := h.visits
    _ ≤ n * (stages + 1) := Nat.mul_le_mul_left n (Nat.succ_le_succ h.within)

/-- The worklist is in one of its phases. -/
structure InPhase (E : Equations n F) (before : Nat → Fin n → Fin n → Prop)
    (P : Nat → Fin n → F → Prop) (stages : Nat) (w : Worklist n F) : Prop where
  follows : E.Follows w.progress
  consistent : E.Consistent w
  exact : w.Exact
  phase : ∃ k current later, E.Phase before P stages k current later w

namespace Staged

variable (staged : E.Staged f before P stages) (acc : E.Accumulates f)
include staged acc

/-- When a phase is over, the next one begins. A node that need not be visited in it is settled, and
would get no more from a visit than it has. -/
theorem next_phase (anyhow : ∀ k j i, ¬ before (k + 1) j i) {k : Nat} {later : List (Fin n)}
    {w : Worklist n F} (h : E.InPhase before P stages w)
    (phase : E.Phase before P stages k [] later w) (waits : w.queue ≠ []) :
    E.Phase before P stages (k + 1) later [] w := by
  have hqueue : w.queue = later := phase.queue
  have reached : ∀ j, P (k + 1) j (w.progress.store.get j).output := fun j =>
    phase.ahead j List.not_mem_nil
  refine ⟨by rw [hqueue, List.append_nil], ?_, fun _ => rfl, reached, fun j hj => ?_,
    fun _ i _ _ j hj => absurd hj (anyhow k j i), ?_⟩
  · exact phase.within.lt_of_ne fun last => waits (hqueue.trans (phase.last last))
  · obtain ⟨collected, visited⟩ := h.consistent.settled j (hqueue ▸ hj)
    rw [h.follows.output_eq acc visited]
    exact staged.step h.follows reached (fun i hi => absurd hi (anyhow k i j)) collected
  · have all := h.exact.length_queue_le
    have := phase.visits
    rw [hqueue] at all
    rw [List.length_nil, Nat.add_zero] at this
    rw [Nat.mul_succ]
    omega

variable [DecidableLE F] [DecidableEq F] {check : Bool}

/-- A visit from the queue is one of the present phase, and what it adds to the queue waits for the
next. -/
theorem visit_phase {k : Nat} {i : Fin n} {rest later : List (Fin n)} {w next : Worklist n F}
    (follows : E.Follows w.progress) (phase : E.Phase before P stages k (i :: rest) later w)
    (hstep : E.visitNext check w = (next, none)) :
    ∃ added, E.Phase before P stages k rest (later ++ added) next ∧ next.visits = w.visits + 1 := by
  have waits : w.queue ≠ [] := by simp [phase.queue]
  obtain ⟨i', rest', p, v, dependents, hqueue, hadvance, hd, rfl⟩ := visitNext_eq_none waits hstep
  obtain ⟨rfl, rfl⟩ : i = i' ∧ rest ++ later = rest' :=
    List.cons.inj (phase.queue.symm.trans hqueue)
  obtain ⟨hv, -, hstore, -⟩ := advance_eq_ok hadvance
  obtain ⟨hvisits, added, hadded, -, -⟩ :=
    Worklist.exists_added dependents (w.visited i (rest ++ later) p)
  have store := (Worklist.progress_foldl_enqueue dependents (w.visited i (rest ++ later) p)).1
  have store : (dependents.foldl Worklist.enqueue (w.visited i (rest ++ later) p)).progress.store =
      w.progress.store.put i v.left := store.trans hstore
  have risen : P (k + 1) i ((w.progress.store.put i v.left).get i).output := by
    rw [Store.get_put, if_pos rfl]
    exact staged.left acc follows hv phase.reached phase.turn.head
  refine ⟨added, ⟨?_, phase.within, fun last => ?_, fun j => ?_, fun j hj => ?_, ?_, ?_⟩, hvisits⟩
  · exact hadded.trans (List.append_assoc rest later added)
  · have quiet := staged.quiet acc follows (last ▸ phase.reached) hv
    obtain ⟨-, rfl⟩ | ⟨changed, -⟩ := hd
    · rw [phase.last last, List.self_eq_append_right.1 hadded]
      rfl
    · cases quiet.symm.trans changed
  · rw [store]
    exact staged.put acc hv (phase.reached j)
  · rw [store]
    by_cases same : j = i
    · exact same ▸ risen
    · exact staged.put acc hv (phase.ahead j (List.not_mem_cons_of_ne_of_not_mem same hj))
  · rw [store]
    exact phase.turn.tail (fun _ => staged.put acc hv) risen
  · have := phase.visits
    rw [hvisits]
    rw [List.length_cons] at this
    change w.visits + 1 + rest.length ≤ n * (k + 1)
    omega

/-- Every visit from the queue goes through, in the present phase or as the first of the next
one. -/
theorem exists_visitNext (anyhow : ∀ k j i, ¬ before (k + 1) j i) (complete : E.Complete)
    (wired : E.Wired) {w : Worklist n F}
    (h : E.InPhase before P stages w) (waits : w.queue ≠ []) :
    ∃ next, E.visitNext check w = (next, none) ∧ E.InPhase before P stages next ∧
      w.visits < next.visits := by
  obtain ⟨next, hstep⟩ := exists_next complete acc.grows check waits
  obtain ⟨k, i, rest, later, phase⟩ :
      ∃ k i rest later, E.Phase before P stages k (i :: rest) later w := by
    obtain ⟨k, current, later, phase⟩ := h.phase
    cases current with
    | cons i rest => exact ⟨k, i, rest, later, phase⟩
    | nil =>
      cases later with
      | nil => exact absurd phase.queue waits
      | cons i rest => exact ⟨k + 1, i, rest, [], staged.next_phase acc anyhow h phase waits⟩
  obtain ⟨added, phase', hvisits⟩ := staged.visit_phase acc h.follows phase hstep
  exact ⟨next, hstep,
    ⟨h.follows.visitNext hstep, h.consistent.visitNext (acc.honest check) wired waits hstep,
    h.exact.visitNext waits hstep, k, rest, later ++ added, phase'⟩, by omega⟩

/-- The worklist is empty after one phase more than there are stages, if only the first stage asks
for nodes to be before others, and in the order in which they wait at first. Else it is not allowed
so many visits. -/
theorem solveByWorklist_ends (check : Bool) (complete : E.Complete) (wired : E.Wired)
    {order : List (Fin n)} (nodup : order.Nodup) (covers : ∀ i, i ∈ order)
    (ahead : ∀ front i back, order = front ++ i :: back → ∀ j, before 0 j i → j ∈ front)
    (anyhow : ∀ k j i, ¬ before (k + 1) j i) (limit? : Option Nat) :
    ∃ last outcome, E.solveByWorklist check limit? order = (last, outcome) ∧
      ((∃ tally, outcome = .ok tally ∧ tally.visits ≤ n * (stages + 1)) ∨
        (∃ limit, limit? = some limit ∧ outcome = .error (.limitReached limit) ∧
          min (limit * n) maxCount < n * (stages + 1)) ∨
        outcome = .error .countExhausted ∧ maxCount < n * (stages + 1)) := by
  have bounded : ∀ w : Worklist n F, E.InPhase before P stages w → w.visits ≤ n * (stages + 1) := by
    rintro w ⟨-, -, -, k, current, later, phase⟩
    exact phase.visits_le
  have first : E.InPhase before P stages (E.firstVisit order) := by
    have exact : (E.firstVisit order).Exact := Worklist.exact_firstVisit nodup
    refine ⟨follows_start, consistent_firstVisit covers, exact, 0, order, [], ?_⟩
    refine ⟨(List.append_nil order).symm, Nat.zero_le _, fun _ => rfl, fun j => staged.start j _,
      fun j hj => absurd (covers j) hj,
      fun front i back horder j hj => .inl (ahead front i back horder j hj), ?_⟩
    simpa [firstVisit] using exact.length_queue_le
  obtain ⟨last, outcome, hsolve, hlast, ends⟩ := solveByWorklist_of_bounded check bounded first
    (fun _ => staged.exists_visitNext acc anyhow complete wired) limit?
  exact ⟨last.progress, outcome, hsolve, ends.imp_left fun hok => ⟨_, hok, bounded last hlast⟩⟩

omit staged in
/-- Under either schedule, in whatever order the nodes are visited first: the work ends with a
result after as many passes as there are stages and one more, or after as many visits as so many
passes make, unless it is not allowed so many. -/
theorem solve_ends (staged : E.Staged f (fun _ _ _ => False) P stages) (complete : E.Complete)
    (wired : E.Wired) {order : List (Fin n)} (horder : E.order = .ok order) (nodup : order.Nodup)
    (settings : Settings) :
    ∃ last outcome, E.solve settings = (last, outcome) ∧
      ((∃ tally, outcome = .ok tally ∧
          (settings.strategy = .roundRobin → tally.passes ≤ stages + 1) ∧
          (settings.strategy = .worklist → tally.visits ≤ n * (stages + 1))) ∨
        (∃ limit, settings.maxPasses = some limit ∧ outcome = .error (.limitReached limit) ∧
          (limit < stages + 1 ∨ maxCount < n * (stages + 1))) ∨
        outcome = .error .countExhausted ∧ maxCount < n * (stages + 1)) := by
  have covers := wired.covers horder
  unfold solve
  rw [horder]
  cases settings.strategy with
  | roundRobin =>
    obtain ⟨last, outcome, hsolve, ends⟩ := staged.solveInRounds_ends acc settings.checkTransfer
      complete covers (fun _ _ _ _ _ _ => False.elim) settings.maxPasses
    refine ⟨last, outcome, hsolve, ?_⟩
    obtain ⟨tally, hok, few⟩ | ⟨limit, hlimit, herror, short⟩ | ⟨herror, short⟩ := ends
    · exact .inl ⟨tally, hok, fun _ => few, nofun⟩
    · exact .inr (.inl ⟨limit, hlimit, herror, .inl short⟩)
    · exact .inr (.inr ⟨herror, (countablePasses_lt_iff E.boundary.pos).1 short⟩)
  | worklist =>
    obtain ⟨last, outcome, hsolve, ends⟩ := staged.solveByWorklist_ends acc settings.checkTransfer
      complete wired nodup covers (fun _ _ _ _ _ => False.elim) (fun _ _ _ => not_false)
      settings.maxPasses
    refine ⟨last, outcome, hsolve, ?_⟩
    obtain ⟨tally, hok, few⟩ | ⟨limit, hlimit, herror, short⟩ | ⟨herror, short⟩ := ends
    · exact .inl ⟨tally, hok, nofun, fun _ => few⟩
    · exact .inr (.inl ⟨limit, hlimit, herror, lt_or_lt_of_min_lt short⟩)
    · exact .inr (.inr ⟨herror, short⟩)

end Staged

end Equations

end FlowFacts

import FlowFacts.Proofs.Equations.Waves

/-!
# What the events of a schedule add up to

Rounds note each pass with its number, and as long as they go on, with a change: only the last pass
had none (`Equations.passReports_of_solveInRounds`). With the worklist the books balance: the visits
that were made and the nodes that wait are together as many as the nodes that waited at first and
those that were put in the queue since (`Equations.Balanced`). When no node is left, there was a
visit for each of them (`Equations.visits_of_solveByWorklist`).
-/

namespace FlowFacts

variable {n : Nat} {F : Type}

/-- The number and the report of a pass, if the event is one. -/
def Event.pass? : Event n F → Option (Nat × Change)
  | passed number report => some (number, report)
  | visited _ | enqueued _ => none

/-- The passes that are complete, with their numbers and reports, the latest first. -/
def Progress.passReports (p : Progress n F) : List (Nat × Change) := p.events.filterMap Event.pass?

def Event.isEnqueued : Event n F → Bool
  | enqueued _ => true
  | visited _ | passed .. => false

/-- How often a node was put in the queue. -/
def Progress.enqueuings (p : Progress n F) : Nat := p.events.countP Event.isEnqueued

/-- Passes with their numbers, from the first one on. All but the last one report a change. -/
def reportsOf (passes : Nat) (last : Change) : List (Nat × Change) :=
  (List.range' 1 passes).map fun k => (k, if k = passes then last else .changed)

theorem reportsOf_succ (passes : Nat) (last : Change) :
    reportsOf (passes + 1) last = reportsOf passes .changed ++ [(passes + 1, last)] := by
  have earlier : ∀ k ∈ List.range' 1 passes, k ≠ passes + 1 := by
    intro k hk
    rw [List.mem_range'_1] at hk
    omega
  rw [reportsOf, reportsOf, List.range'_1_concat, List.map_append]
  congr 1
  · refine List.map_congr_left fun k hk => ?_
    rw [if_neg (earlier k hk), ite_self]
  · rw [Nat.add_comm 1 passes, List.map_singleton, if_pos rfl]

/-! ### Rounds -/

namespace Equations

variable {E : Equations n F}

/-- The passes are numbered one by one. All but the last one had a change, and rounds that are not
settled had one in that as well. -/
def Numbered (s : Rounds n F) : Prop :=
  s.progress.passReports.reverse =
    reportsOf s.tally.passes (if s.settled then .unchanged else .changed)

variable [LE F] [DecidableLE F] [DecidableEq F] {check : Bool}

/-- An advance notes a visit and nothing else. -/
theorem notes_advance (check : Bool) (p : Progress n F) (i : Fin n) :
    (E.advance check p i).1.passReports = p.passReports ∧
      (E.advance check p i).1.enqueuings = p.enqueuings := by
  unfold advance
  split <;> exact ⟨rfl, rfl⟩

theorem passReports_sweep (check : Bool) (order : List (Fin n)) (p : Progress n F)
    (report : Change) : (E.sweep check order p report).1.passReports = p.passReports := by
  apply sweep_preserves (I := fun q => q.passReports = p.passReports) _ rfl
  exact fun q i h => (notes_advance check q i).1.trans h

theorem Numbered.pass {order : List (Fin n)} {s next : Rounds n F} (h : Numbered s)
    (unsettled : s.settled = false) (hstep : E.pass check order s = (next, none)) :
    Numbered next := by
  have kept := passReports_sweep (E := E) check order s.progress .unchanged
  obtain ⟨p, report, hsweep, rfl⟩ := pass_eq_none hstep
  rw [hsweep] at kept
  have noted : (p.record (.passed (s.tally.passes + 1) report)).passReports =
      (s.tally.passes + 1, report) :: p.passReports := rfl
  have last : (if report.isUnchanged then Change.unchanged else .changed) = report := by
    cases report <;> rfl
  have before : p.passReports.reverse = reportsOf s.tally.passes .changed := by
    rw [kept, h, unsettled]
    rfl
  calc (p.record (.passed (s.tally.passes + 1) report)).passReports.reverse
      = reportsOf s.tally.passes .changed ++ [(s.tally.passes + 1, report)] := by
        rw [noted, List.reverse_cons, before]
    _ = reportsOf (s.tally.passes + 1) (if report.isUnchanged then .unchanged else .changed) := by
        rw [last, reportsOf_succ]

/-- Rounds with a result noted their passes by number, all but the last one with a change. -/
theorem passReports_of_solveInRounds {limit? : Option Nat} {order : List (Fin n)}
    {last : Progress n F}
    {tally : Tally} (h : E.solveInRounds check limit? order = (last, .ok tally)) :
    last.passReports.reverse = reportsOf tally.passes .unchanged := by
  have first : Numbered E.firstRound := rfl
  obtain ⟨s, numbered, settled, rfl, rfl⟩ :=
    invariant_of_solveInRounds first (fun _ _ hs => hs.pass) h
  rwa [Numbered, settled] at numbered

omit [LE F] [DecidableLE F] [DecidableEq F] in
/-- Rounds visit each node as often as there are passes. -/
theorem InOrder.count_visits {order : List (Fin n)} {s : Rounds n F} (h : E.InOrder order s)
    (nodup : order.Nodup) {i : Fin n} (hi : i ∈ order) :
    (s.progress.visits.map Visit.node).count i = s.tally.passes := by
  have once : order.reverse.count i = 1 := by
    rw [List.count_reverse, List.count_eq_one_of_mem nodup hi]
  rw [h.nodes, List.count_flatten, List.map_replicate, once, List.sum_replicate_nat, Nat.mul_one]

/-! ### The worklist -/

end Equations

/-- Each node that is put in the queue makes it longer by one, and is noted once. -/
theorem Worklist.balance_foldl_enqueue (dependents : List (Fin n)) (w : Worklist n F) :
    (dependents.foldl enqueue w).queue.length + w.progress.enqueuings =
      w.queue.length + (dependents.foldl enqueue w).progress.enqueuings := by
  induction dependents generalizing w with
  | nil => rfl
  | cons d rest ih =>
    have step : (w.enqueue d).queue.length + w.progress.enqueuings =
        w.queue.length + (w.enqueue d).progress.enqueuings := by
      unfold enqueue
      split
      next => rfl
      next =>
        have noted : (w.progress.record (.enqueued d)).enqueuings = w.progress.enqueuings + 1 :=
          List.countP_cons_of_pos rfl
        change (w.queue ++ [d]).length + _ = _ + (w.progress.record (.enqueued d)).enqueuings
        rw [noted, List.length_append, List.length_singleton, Nat.add_right_comm, Nat.add_assoc]
    have := ih (w.enqueue d)
    rw [List.foldl_cons]
    omega

namespace Equations

variable {E : Equations n F}

/-- Each visit that was made was of a node that waited at first or was put in the queue since, and
the other ones of these wait still. -/
def Balanced (size : Nat) (w : Worklist n F) : Prop :=
  w.visits + w.queue.length = size + w.progress.enqueuings

theorem balanced_firstVisit (order : List (Fin n)) : Balanced order.length (E.firstVisit order) :=
  Nat.add_comm 0 order.length

variable [LE F] [DecidableLE F] [DecidableEq F] {check : Bool}

theorem Balanced.visitNext {size : Nat} {w next : Worklist n F} (h : Balanced size w)
    (waits : w.queue ≠ []) (hstep : E.visitNext check w = (next, none)) : Balanced size next := by
  have hcount := (counts_visitNext waits hstep).2
  obtain ⟨i, rest, p, v, added, hqueue, hadvance, -, rfl⟩ := visitNext_eq_none waits hstep
  have noted : p.enqueuings = w.progress.enqueuings := by
    rw [← (notes_advance (E := E) check w.progress i).2, hadvance]
  have after := Worklist.balance_foldl_enqueue added (w.visited i rest p)
  change _ + p.enqueuings = rest.length + _ at after
  rw [Balanced, hqueue, List.length_cons] at h
  rw [Balanced, hcount]
  omega

/-- When no node waits any longer, there was a visit for each that waited at first or was put in the
queue. -/
theorem visits_of_solveByWorklist {limit? : Option Nat} {order : List (Fin n)} {last : Progress n F}
    {tally : Tally} (h : E.solveByWorklist check limit? order = (last, .ok tally)) :
    tally.visits = order.length + last.enqueuings := by
  obtain ⟨w, balanced, done, rfl, rfl⟩ := invariant_of_solveByWorklist (balanced_firstVisit order)
    (fun _ _ hw => hw.visitNext) h
  rwa [Balanced, done, List.length_nil, Nat.add_zero] at balanced

end Equations

end FlowFacts

import FlowFacts.Proofs.Equations.Limits
import FlowFacts.Proofs.Equations.Stages

/-!
# Where one sweep is enough

If each node is visited before its dependents (`Equations.Topological`), then a sweep leaves every
node settled: what it drew on has not changed since it was visited. During the sweep the dependents
of a node still wait, so the worklist never puts a node in the queue and is empty after the sweep
(`Equations.ends_visitLoop`). Rounds make one more sweep, which changes nothing if transfer
functions have nothing to add to what they just did (`Equations.ends_roundLoop`).
-/

namespace FlowFacts

theorem Worklist.foldl_enqueue_of_queued {n : Nat} {F : Type} {w : Worklist n F}
    {dependents : List (Fin n)}
    (queued : ∀ i ∈ dependents, w.queued.get i = true) : dependents.foldl enqueue w = w := by
  induction dependents with
  | nil => rfl
  | cons i rest ih =>
    obtain ⟨hi, hrest⟩ := List.forall_mem_cons.1 queued
    rw [List.foldl_cons, enqueue, if_pos hi]
    exact ih hrest

theorem Store.put_self {n : Nat} {F : Type} (store : Store n F) (i : Fin n) :
    store.put i (store.get i) = store := by
  apply Vector.ext
  intro k hk
  change (store.put i (store.get i)).get ⟨k, hk⟩ = store.get ⟨k, hk⟩
  exact Store.forall_put (P := fun j facts => facts = store.get j) rfl (fun _ _ => rfl) _

namespace Equations

variable {n : Nat} {F : Type} {E : Equations n F} {order : List (Fin n)}

/-- Each node comes before its dependents. -/
def Topological (E : Equations n F) (order : List (Fin n)) : Prop :=
  ∀ front i back, order = front ++ i :: back → ∀ dependents, E.dependents i = .ok dependents →
    ∀ j ∈ dependents, j ∈ back

theorem Topological.head {i : Fin n} {rest dependents : List (Fin n)}
    (h : E.Topological (i :: rest))
    (hd : E.dependents i = .ok dependents) : ∀ j ∈ dependents, j ∈ rest :=
  h [] i rest rfl dependents hd

theorem Topological.tail {i : Fin n} {rest : List (Fin n)} (h : E.Topological (i :: rest)) :
    E.Topological rest := fun front j back hrest =>
  h (i :: front) j back (congrArg (i :: ·) hrest)

variable [LE F] [DecidableLE F] [DecidableEq F]

/-! ### Sweeps without checks -/

theorem advance_unchecked {p : Progress n F} {i : Fin n} {v : Visit n F}
    (hv : E.visit p.store i = .ok v) :
    E.advance false p i = (⟨p.store.put i v.left, .visited v :: p.events⟩, .ok v) := by
  simp [advance, hv]

/-- A sweep in topological order settles the nodes that it visits and does not unsettle any
others. -/
theorem settled_sweep (complete : E.Complete) (wired : E.Wired) (keeps : E.KeepsInputs)
    (topological : E.Topological order) {p q : Progress n F} {report report' : Change}
    (settled : ∀ j, j ∉ order → E.Settled p j) (h : E.sweep false order p report = (q, .ok report'))
    (j : Fin n) : E.Settled q j := by
  induction order generalizing p report with
  | nil =>
    cases h
    exact settled j List.not_mem_nil
  | cons i rest ih =>
    unfold sweep at h
    split at h
    next => cases h
    next next v hadvance =>
      obtain ⟨hv, -, hstore, -⟩ := advance_eq_ok hadvance
      refine ih topological.tail (fun j hj => ?_) h
      have old : j = i ∨ E.Settled p j := by
        by_cases hji : j = i
        · exact .inl hji
        · exact .inr (settled j (List.not_mem_cons_of_ne_of_not_mem hji hj))
      refine ⟨?_, visited_advance hadvance (old.imp_right And.right)⟩
      -- A node that draws on the one that was just visited is still to come.
      have apart : ∀ sources, E.sources j = .ok sources → i ∈ sources →
          v.left.output = v.found.output := by
        intro sources hs hi
        obtain ⟨dependents, hd⟩ := complete.dependents i
        exact absurd (topological.head hd j (wired.linked hs hd hi)) hj
      rw [hstore]
      exact collected_put hv (keeps.left_input hv) apart (old.imp_right And.left)

/-- Where all inputs are collected and all transfer functions are done, a sweep changes nothing. -/
theorem exists_sweep_of_steady {p : Progress n F} (collected : ∀ i, E.Collected p.store i)
    (steady : ∀ i, E.Steady p.store i) (order : List (Fin n)) :
    ∃ q, E.sweep false order p .unchanged = (q, .ok .unchanged) ∧ q.store = p.store := by
  induction order generalizing p with
  | nil => exact ⟨p, rfl, rfl⟩
  | cons i rest ih =>
    have hv : E.visit p.store i = .ok ⟨i, p.store.get i, p.store.get i, .unchanged⟩ :=
      visit_eq_ok_iff.2 ⟨rfl, collected i, rfl, steady i⟩
    have same : p.store.put i (p.store.get i) = p.store := p.store.put_self i
    obtain ⟨q, hsweep, hstore⟩ :=
      ih (p := ⟨p.store.put i (p.store.get i), .visited _ :: p.events⟩) (by rwa [same])
        (by rwa [same])
    refine ⟨q, ?_, hstore.trans same⟩
    rw [sweep, advance_unchecked hv]
    exact hsweep

/-! ### The schedules -/

/-- The worklist makes one sweep, during which no node is put in the queue. -/
theorem ends_visitLoop (complete : E.Complete) (topological : E.Topological order)
    {w : Worklist n F} (exact : w.Exact) (queue : w.queue = order) (report : Change) :
    ∃ last report', E.sweep false order w.progress report = (last.progress, .ok report') ∧
      last.visits = w.visits + order.length ∧
      (E.visitLoop false).Ends w order.length (last, .ok ⟨last.passes, last.visits⟩) := by
  induction order generalizing w report with
  | nil => exact ⟨w, report, rfl, rfl, .result (by simp [visitLoop, queue])⟩
  | cons i rest ih =>
    obtain ⟨v, hv⟩ := complete.exists_visit w.progress.store i
    obtain ⟨dependents, hd⟩ := complete.dependents i
    obtain ⟨p, hadvance⟩ : ∃ p, E.advance false w.progress i = (p, .ok v) :=
      ⟨_, advance_unchecked hv⟩
    have exact' := exact.visited queue p
    have waiting :=
      Worklist.foldl_enqueue_of_queued fun j hj => exact'.waits j (topological.head hd j hj)
    have hstep : E.visitNext false w = (w.visited i rest p, none) := by
      rw [visitNext_cons queue, hadvance, afterVisit, hd]
      dsimp only
      rw [waiting, ite_self]
    obtain ⟨last, report', hsweep, hvisits, ends⟩ :=
      ih topological.tail exact' rfl (report ||| v.report)
    refine ⟨last, report', by rw [sweep, hadvance]; exact hsweep, ?_, ?_⟩
    · rw [hvisits, List.length_cons, Nat.add_comm rest.length, ← Nat.add_assoc]
      rfl
    · exact .step (by simp [visitLoop, queue]) hstep ends

/-- Rounds make one sweep, and a second one that confirms it unless the first one changed
nothing. -/
theorem ends_roundLoop {q : Progress n F} {report : Change}
    (hsweep : E.sweep false order E.start .unchanged = (q, .ok report))
    (collected : ∀ i, E.Collected q.store i) (steady : ∀ i, E.Steady q.store i) :
    ∃ last : Rounds n F, last.progress.store = q.store ∧ last.tally.passes ≤ 2 ∧
      (E.roundLoop false order).Ends E.firstRound last.tally.passes (last, .ok last.tally) := by
  have first : E.pass false order E.firstRound =
      (⟨q.record (.passed 1 report), ⟨1, 0 + order.length⟩, report.isUnchanged⟩, none) := by
    unfold pass
    rw [firstRound, hsweep]
  cases report with
  | unchanged =>
    exact ⟨⟨q.record (.passed 1 .unchanged), ⟨1, 0 + order.length⟩, true⟩, rfl, Nat.le_succ 1,
      .step rfl first (.result rfl)⟩
  | changed =>
    obtain ⟨q', hsweep', hstore⟩ :=
      exists_sweep_of_steady (p := q.record (.passed 1 .changed)) collected steady order
    refine ⟨⟨q'.record (.passed 2 .unchanged), ⟨2, 0 + order.length + order.length⟩, true⟩, hstore,
      Nat.le_refl 2, .step rfl first (.step rfl ?_ (.result rfl))⟩
    change E.pass false order _ = _
    unfold pass
    rw [hsweep']
    rfl

theorem not_mem_events_sweep {q : Progress n F} {report report' : Change}
    (h : E.sweep false order E.start report = (q, .ok report')) (i : Fin n) :
    .enqueued i ∉ q.events := by
  have keep : ∀ (p : Progress n F) j, .enqueued i ∉ p.events →
      .enqueued i ∉ (E.advance false p j).1.events := by
    intro p j fresh
    unfold advance
    split
    · exact fresh
    · exact List.not_mem_cons_of_ne_of_not_mem nofun fresh
  have fresh : .enqueued i ∉ (E.sweep false order E.start report).1.events :=
    sweep_preserves (I := fun p : Progress n F => .enqueued i ∉ p.events) keep List.not_mem_nil
  rwa [h] at fresh

/-- In topological order and without checks, the worklist visits each node once. Rounds end with the
same facts after the second pass at the latest, if transfer functions have nothing to add to what
they just did. -/
theorem exists_store_of_topological (complete : E.Complete) (wired : E.Wired)
    (keeps : E.KeepsInputs) (horder : E.order = .ok order) (nodup : order.Nodup)
    (topological : E.Topological order) (small : n * 2 ≤ maxCount) :
    ∃ store : Store n F,
      (∀ limit?, (∀ limit, limit? = some limit → 1 ≤ limit) →
        ∃ last, E.solve ⟨.worklist, limit?, false⟩ = (last, .ok ⟨1, n⟩) ∧ last.store = store ∧
          ∀ i, .enqueued i ∉ last.events) ∧
      ((∀ i facts, E.transfer i (E.transfer i facts).1 = ((E.transfer i facts).1, .unchanged)) →
        ∀ limit?, (∀ limit, limit? = some limit → 2 ≤ limit) →
          ∃ last tally, E.solve ⟨.roundRobin, limit?, false⟩ = (last, .ok tally) ∧
            tally.passes ≤ 2 ∧ last.store = store) := by
  have pos := E.boundary.pos
  have full := wired.length_order horder nodup
  obtain ⟨w, report, hsweep, hvisits, ends⟩ := ends_visitLoop complete topological
    (Worklist.exact_firstVisit (E := E) nodup) rfl .unchanged
  have hsweep : E.sweep false order E.start .unchanged = (w.progress, .ok report) := hsweep
  have hvisits : w.visits = n := by rw [hvisits, full]; exact Nat.zero_add n
  have hpasses : w.passes = 1 := by
    rw [Worklist.passes, hvisits, Nat.div_eq_iff pos]
    omega
  have settled := settled_sweep complete wired keeps topological
    (fun j hj => absurd (wired.covers horder j) hj) hsweep
  refine ⟨w.progress.store, fun limit? enough => ⟨w.progress, ?_, rfl, ?_⟩,
    fun again limit? enough => ?_⟩
  · have budget : n ≤ (visitAllowance n limit?).steps := by
      refine le_visitAllowance_iff.2 ⟨(Nat.le_mul_of_pos_right n Nat.two_pos).trans small, ?_⟩
      exact fun limit hlimit => Nat.le_mul_of_pos_left n (enough limit hlimit)
    simp only [solve, horder]
    rw [solveByWorklist_eq, ends.run_eq (full.trans_le budget), hpasses, hvisits]
    rfl
  · exact not_mem_events_sweep hsweep
  · have trail : E.Trail w.progress.visits w.progress.store := follows_start.sweep hsweep
    have steady : ∀ i, E.Steady w.progress.store i := by
      intro i
      obtain ⟨facts, left⟩ := trail.exists_found (settled i).2
      rw [Steady, ← left, again]
    obtain ⟨last, hstore, two, ends⟩ := ends_roundLoop hsweep (fun i => (settled i).1) steady
    have budget : 2 ≤ (passAllowance n limit?).steps := by
      have countable : 2 ≤ countablePasses n := by
        rwa [← Nat.not_lt, countablePasses_lt_iff pos, Nat.not_lt]
      exact le_passAllowance_iff.2 ⟨countable, enough⟩
    refine ⟨last.progress, last.tally, ?_, two, hstore⟩
    simp only [solve, horder]
    rw [solveInRounds_eq, ends.run_eq (two.trans budget)]
    rfl

end Equations

end FlowFacts

import FlowFacts.Proofs.Equations.Limits
import FlowFacts.Proofs.Equations.Stages

/-!
# How far the worklist falls behind rounds

The first phase of the worklist is a sweep, as in rounds. After it the nodes no longer come in
order: what changes at a node is seen by its dependents a phase later, while rounds may carry it
along many edges in one pass. But a phase makes up for a visit. If outputs have all that the first
so many visits of the rounds left (`Equations.CaughtUp`), then one phase later they have what the
next of these visits left as well, since rounds found no more to collect for it
(`Equations.left_le_of_behind`).

So the worklist is done after one phase for the first pass of the rounds, a phase for each visit of
the passes after it save for the last, which changes nothing, and one phase more
(`Equations.catches_up`).
-/

namespace FlowFacts.Equations

variable {n : Nat} {F : Type} {E : Equations n F}

/-! ### What rounds do -/

/-- Rounds visit the nodes in order, over and over, and a quiet pass settles them. -/
structure InOrder (E : Equations n F) (order : List (Fin n)) (s : Rounds n F) : Prop where
  follows : E.Follows s.progress
  counted : s.tally.visits = order.length * s.tally.passes
  nodes : s.progress.visits.map Visit.node = (List.replicate s.tally.passes order.reverse).flatten
  quiet : s.settled = true → ∀ v ∈ s.progress.visits.take order.length, v.report = .unchanged
  begun : s.settled = true → s.tally.passes ≠ 0

section

variable [LE F] [DecidableLE F] [DecidableEq F] {check : Bool} {order : List (Fin n)}

theorem visits_sweep {p q : Progress n F} {report report' : Change}
    (h : E.sweep check order p report = (q, .ok report')) :
    ∃ new, q.visits = new ++ p.visits ∧ new.map Visit.node = order.reverse ∧
      (report' = .unchanged → report = .unchanged ∧ ∀ v ∈ new, v.report = .unchanged) := by
  induction order generalizing p report with
  | nil =>
    cases h
    exact ⟨[], rfl, rfl, fun quiet => ⟨quiet, List.forall_mem_nil _⟩⟩
  | cons i rest ih =>
    unfold sweep at h
    split at h
    next => cases h
    next next v hadvance =>
      obtain ⟨hv, -, -, hvisits⟩ := advance_eq_ok hadvance
      obtain ⟨new, hnew, hnodes, hquiet⟩ := ih h
      refine ⟨new ++ [v], by simp [hnew, hvisits], ?_, fun quiet => ?_⟩
      · rw [List.map_append, hnodes, List.map_singleton, (visit_eq_ok_iff.1 hv).1,
          List.reverse_cons]
      · obtain ⟨hreport, quiet⟩ := hquiet quiet
        obtain ⟨rfl, hv⟩ := Change.or_eq_unchanged_iff.1 hreport
        refine ⟨rfl, fun u hu => ?_⟩
        rcases List.mem_append.1 hu with hu | hu
        · exact quiet u hu
        · exact List.mem_singleton.1 hu ▸ hv

theorem InOrder.pass {s next : Rounds n F} (h : E.InOrder order s)
    (hstep : E.pass check order s = (next, none)) : E.InOrder order next := by
  have follows : E.Follows next.progress := h.follows.pass hstep
  obtain ⟨p, report, hsweep, rfl⟩ := pass_eq_none hstep
  obtain ⟨new, hnew, hnodes, hquiet⟩ := visits_sweep hsweep
  have hvisits :
      (p.record (.passed (s.tally.passes + 1) report)).visits = new ++ s.progress.visits := by
    rw [Progress.visits_record p rfl, hnew]
  have hlength : new.length = order.length := by simpa using congrArg List.length hnodes
  refine ⟨follows, ?_, ?_, fun settled v hv => ?_, fun _ => Nat.succ_ne_zero _⟩
  · change s.tally.visits + order.length = order.length * (s.tally.passes + 1)
    rw [h.counted, Nat.mul_succ]
  · change (p.record _).visits.map Visit.node = (List.replicate (s.tally.passes + 1) _).flatten
    rw [hvisits, List.map_append, hnodes, h.nodes, List.replicate_succ, List.flatten_cons]
  · change v ∈ (p.record _).visits.take order.length at hv
    rw [hvisits, ← hlength, List.take_left] at hv
    cases report with
    | changed => cases settled
    | unchanged => exact (hquiet rfl).2 v hv

/-- Rounds with a result went through the nodes in order, so often as they say. -/
theorem inOrder_of_solveInRounds {limit? : Option Nat} {last : Progress n F} {tally : Tally}
    (h : E.solveInRounds check limit? order = (last, .ok tally)) :
    ∃ s, E.InOrder order s ∧ s.settled = true ∧ s.progress = last ∧ s.tally = tally := by
  have first : E.InOrder order E.firstRound := ⟨follows_start, rfl, rfl, nofun, nofun⟩
  exact invariant_of_solveInRounds first (fun _ _ hs _ => hs.pass) h

end

section

variable {order : List (Fin n)} {s : Rounds n F} (h : E.InOrder order s)
include h

theorem InOrder.length_visits : s.progress.visits.length = order.length * s.tally.passes := by
  rw [← List.length_map (f := Visit.node), h.nodes]
  simp [Nat.mul_comm]

/-- A visit of the first pass comes after those of the nodes before its own in the order. -/
theorem InOrder.exists_front {v : Visit n F} {earlier : List (Visit n F)}
    (suffix : v :: earlier <:+ s.progress.visits) (few : (v :: earlier).length ≤ order.length) :
    ∃ front back, order = front ++ v.node :: back ∧ ∀ u ∈ earlier, u.node ∈ front := by
  have hnodes :
      (v :: earlier).map Visit.node <:+ (List.replicate s.tally.passes order.reverse).flatten := by
    rw [← h.nodes]
    exact suffix.map _
  have hfirst : order.reverse <:+ (List.replicate s.tally.passes order.reverse).flatten := by
    cases hpasses : s.tally.passes with
    | zero => simp [hpasses] at hnodes
    | succ passes =>
      rw [List.replicate_succ', List.flatten_append]
      simp
  obtain ⟨back, hback⟩ := List.suffix_of_suffix_length_le hnodes hfirst (by simpa using few)
  refine ⟨(earlier.map Visit.node).reverse, back.reverse, ?_, fun u hu => ?_⟩
  · rw [← List.reverse_reverse order, ← hback]
    simp
  · exact List.mem_reverse.2 (List.mem_map_of_mem hu)

end

/-! ### Catching up -/

variable {visits : List (Visit n F)} {store : Store n F}

/-- Each visit on a trail was made where the visits before it had led. -/
theorem Trail.exists_visit (trail : E.Trail visits store) {v : Visit n F}
    {earlier : List (Visit n F)} (suffix : v :: earlier <:+ visits) :
    ∃ before, E.Trail earlier before ∧ E.visit before v.node = .ok v := by
  induction trail with
  | seed => cases List.suffix_nil.1 suffix
  | @visit visits store i w trail hw ih =>
    rcases List.suffix_cons_iff.1 suffix with same | suffix
    · obtain ⟨rfl, rfl⟩ := List.cons.inj same
      exact ⟨store, trail, (visit_eq_ok_iff.1 hw).1 ▸ hw⟩
    · exact ih suffix

/-- The output has what the first so many of the visits left at the node. -/
def CaughtUp (visits : List (Visit n F)) [LE F] (k : Nat) (i : Fin n) (x : F) : Prop :=
  ∀ early, early <:+ visits → early.length ≤ k → ∀ v ∈ early, v.node = i → v.left.output ≤ x

variable [SemilatticeSup F] {f : Fin n → F → F} (acc : E.Accumulates f)
include acc

/-- A bound on what the visits that report a change leave is a bound on the outputs. -/
theorem Trail.output_le {X : Fin n → F} (trail : E.Trail visits store)
    (below : ∀ v ∈ visits, v.report = .changed → v.left.output ≤ X v.node) (i : Fin n) :
    (store.get i).output ≤ X i := by
  induction trail generalizing i with
  | seed =>
    rw [get_seed]
    split <;> exact acc.initial_le _
  | @visit visits store k w _ hw ih =>
    obtain ⟨hv, earlier⟩ := List.forall_mem_cons.1 below
    obtain ⟨rfl, -, hfound, -⟩ := visit_eq_ok_iff.1 hw
    refine Store.forall_put (P := fun i facts => facts.output ≤ X i) ?_ (fun j _ => ih earlier j) i
    cases hreport : w.report with
    | changed => exact hv hreport
    | unchanged =>
      rw [acc.grows.output_eq_of_unchanged hw hreport, hfound]
      exact ih earlier _

/-- A visit leaves no more than is found elsewhere, where outputs have what all visits before it
left. -/
theorem left_le_of_behind {visits' : List (Visit n F)} {store' : Store n F}
    (trail : E.Trail visits store) (trail' : E.Trail visits' store') {i : Fin n} {v : Visit n F}
    {x : F} (hv : E.visit store i = .ok v)
    (behind : ∀ u ∈ visits, u.left.output ≤ (store'.get u.node).output)
    (hgather : E.gather store' i = .ok x) : v.left.output ≤ f i x := by
  have outputs :=
    trail.output_le acc (X := fun j => (store'.get j).output) fun u hu _ => behind u hu
  have own : (store.get E.boundary).input ≤ (store'.get E.boundary).input :=
    ((trail.growing acc).boundary.trans (trail'.growing acc).boundary.symm).le
  obtain ⟨y, hy, le⟩ := acc.meetsUpward.gather_le (fun hi => hi ▸ own) outputs hgather
  cases hy.symm.trans (visit_eq_ok_iff.1 hv).2.1
  rw [(trail.growing acc).left_output acc hv, acc.keepsInputs.left_input hv]
  exact acc.monotone i le

/-- How many visits of the rounds so many phases make up for: the first one a pass, each other one a
visit. -/
def madeUp (n : Nat) : Nat → Nat
  | 0 => 0
  | k + 1 => n + k

/-- How many phases make up for so many passes, the last of which changes nothing. -/
def phasesFor (n passes : Nat) : Nat := n * (passes - 2) + min passes 2

omit [SemilatticeSup F] acc in
theorem le_madeUp_phasesFor (n passes : Nat) :
    n * passes - n ≤ madeUp n (phasesFor n passes - 1) := by
  match passes with
  | 0 => simp
  | 1 => simp
  | passes + 2 =>
    have : phasesFor n (passes + 2) - 1 = n * passes + 1 := by simp [phasesFor]
    rw [this, madeUp, Nat.mul_add]
    omega

/-- In each phase the worklist catches up with the rounds. Only in the first one it goes through the
nodes in the order of the rounds. -/
theorem InOrder.staged {order : List (Fin n)} {s : Rounds n F} (h : E.InOrder order s)
    (settled : s.settled = true) (full : order.length = n)
    (solves : E.Solves f s.progress.store.get) :
    E.Staged f (fun k j i => k = 0 ∧ ∃ front back, order = front ++ i :: back ∧ j ∈ front)
      (fun k => CaughtUp s.progress.visits (madeUp n k)) (phasesFor n s.tally.passes - 1) where
  start i x early _ few v hv := by
    rw [List.eq_nil_of_length_eq_zero (Nat.le_zero.1 few)] at hv
    cases hv
  mono le caughtUp early suffix few v hv hnode := (caughtUp early suffix few v hv hnode).trans le
  step {visits store k i x} trail all ahead hgather early suffix few v hv hnode := by
    obtain ⟨later, earlier, rfl⟩ := List.append_of_mem hv
    have suffix : v :: earlier <:+ s.progress.visits := (List.suffix_append later _).trans suffix
    have few : earlier.length + 1 ≤ madeUp n (k + 1) := by
      rw [List.length_append, List.length_cons] at few
      omega
    have suffix' : earlier <:+ s.progress.visits := (List.suffix_cons v earlier).trans suffix
    obtain ⟨before, trail', hvisit⟩ := h.follows.exists_visit suffix
    subst hnode
    refine left_le_of_behind acc trail' trail hvisit (fun u hu => ?_) hgather
    cases k with
    | zero =>
      obtain ⟨front, back, horder, mem⟩ := h.exists_front suffix (few.trans_eq full.symm)
      exact ahead u.node ⟨rfl, front, back, horder, mem u hu⟩ earlier suffix' (by omega) u hu rfl
    | succ k => exact all u.node earlier suffix' (Nat.le_of_succ_le_succ few) u hu rfl
  done {visits store} trail caughtUp i x hgather := by
    have outputs : ∀ j, (s.progress.store.get j).output ≤ (store.get j).output := by
      refine h.follows.output_le acc fun v hv changed => ?_
      rw [← List.take_append_drop order.length s.progress.visits] at hv
      rcases List.mem_append.1 hv with late | early
      · cases changed.symm.trans (h.quiet settled v late)
      · refine caughtUp v.node _ (List.drop_suffix _ _) ?_ v early rfl
        rw [List.length_drop, h.length_visits, full]
        exact le_madeUp_phasesFor n s.tally.passes
    have hv : E.visit store i = .ok (E.visitWith store i x) := by
      rw [visit, hgather]
      rfl
    have below := ((trail.visit hv).le_of_solves acc solves i).2
    rw [Store.get_put, if_pos rfl, acc.left_of_visit hv] at below
    exact (le_sup_right.trans below).trans (outputs i)

variable [DecidableLE F] [DecidableEq F]

omit acc in
/-- Rounds with a result made the visits of so many passes, at least one, and were allowed these. -/
theorem allowed_of_solveInRounds {check : Bool} {limit? : Option Nat} {order : List (Fin n)}
    {last : Progress n F} {tally : Tally}
    (h : E.solveInRounds check limit? order = (last, .ok tally)) :
    tally.visits = order.length * tally.passes ∧ 0 < tally.passes ∧ n * tally.passes ≤ maxCount ∧
      ∀ limit, limit? = some limit → tally.passes ≤ limit := by
  obtain ⟨countable, allowed⟩ := le_passAllowance_iff.1 (counted_of_solveInRounds h).2
  obtain ⟨s, inOrder, settled, rfl, rfl⟩ := inOrder_of_solveInRounds h
  rw [← Nat.not_lt, countablePasses_lt_iff E.boundary.pos, Nat.not_lt] at countable
  exact ⟨inOrder.counted, Nat.pos_of_ne_zero (inOrder.begun settled), countable, allowed⟩

/-- If rounds have a result, the worklist has one after the phases that make up for their passes,
unless it is not allowed so many visits. -/
theorem catches_up (complete : E.Complete) (wired : E.Wired) {order : List (Fin n)}
    (horder : E.order = .ok order) (nodup : order.Nodup) {limit? : Option Nat} {check : Bool}
    {last : Progress n F} {tally : Tally}
    (h : E.solve ⟨.roundRobin, limit?, check⟩ = (last, .ok tally)) :
    (tally.visits = n * tally.passes ∧ 0 < tally.passes ∧ n * tally.passes ≤ maxCount ∧
      ∀ limit, limit? = some limit → tally.passes ≤ limit) ∧
    ∀ limit'?, ∃ last' outcome, E.solve ⟨.worklist, limit'?, check⟩ = (last', outcome) ∧
      ((∃ tally', outcome = .ok tally' ∧ tally'.visits ≤ n * phasesFor n tally.passes) ∨
        (∃ limit', limit'? = some limit' ∧ outcome = .error (.limitReached limit') ∧
          min (limit' * n) maxCount < n * phasesFor n tally.passes) ∨
        outcome = .error .countExhausted ∧ maxCount < n * phasesFor n tally.passes) := by
  have covers := wired.covers horder
  have full := wired.length_order horder nodup
  have solves := (isLeast_solve acc wired h).1
  simp only [solve, horder] at h ⊢
  have allowed := allowed_of_solveInRounds h
  rw [full] at allowed
  refine ⟨allowed, fun limit'? => ?_⟩
  obtain ⟨s, inOrder, settled, rfl, rfl⟩ := inOrder_of_solveInRounds h
  have phases : phasesFor n s.tally.passes - 1 + 1 = phasesFor n s.tally.passes := by
    have := allowed.2.1
    rw [phasesFor]
    omega
  rw [← phases]
  refine (inOrder.staged acc settled full solves).solveByWorklist_ends acc check complete wired
    nodup covers ?_ (fun k j i => ?_) limit'?
  · rintro front i back hdecomposed j ⟨-, front', back', hdecomposed', mem⟩
    obtain ⟨apart, -⟩ := List.nodup_cons.1 (List.nodup_middle.1 (hdecomposed ▸ nodup))
    rw [List.mem_append, not_or] at apart
    obtain ⟨rfl, -⟩ :=
      (List.append_cons_inj_of_notMem apart.1 apart.2).1 (hdecomposed.symm.trans hdecomposed')
    exact mem
  · rintro ⟨succ, -⟩
    cases succ

end FlowFacts.Equations

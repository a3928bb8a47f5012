import Mathlib.Tactic.Ring
import FlowFacts.Proofs.Equations.Growth

/-!
# How long the schedules take

A round that is not the last one is paid for by a change (`Equations.exists_sweep`), and a visit
that is not the first of its node by a change and an edge (`Equations.exists_visitNext`). Where the
changes are bounded, both schedules therefore end with a result, and say how many passes or visits
that takes at most, unless they are allowed too little (`Equations.solveInRounds_ends`,
`Equations.solveByWorklist_ends`).
-/

namespace FlowFacts

/-! ### Loops -/

/-- A loop whose steps all go on, and push a count up that has a bound, ends with a result unless
its budget falls short of the bound. -/
theorem Loop.run_of_bounded {σ ε α : Type} {L : Loop σ ε α} {exhausted : ε} {I : σ → Prop}
    {count : σ → Nat} {bound : Nat} (bounded : ∀ s, I s → count s ≤ bound)
    (step : ∀ s, I s → L.result? s = none →
      ∃ next, L.step s = (next, none) ∧ I next ∧ count s < count next)
    {budget : Nat} {s : σ} (h : I s) :
    ∃ last outcome, L.run exhausted budget s = (last, outcome) ∧ I last ∧
      ((∃ a, outcome = .ok a ∧ L.result? last = some a) ∨
        outcome = .error exhausted ∧ count s + budget < bound) := by
  induction budget generalizing s with
  | zero =>
    cases hresult : L.result? s with
    | some a => exact ⟨s, .ok a, by rw [run, hresult], h, .inl ⟨a, rfl, hresult⟩⟩
    | none =>
      -- There is a step left to take, so the count has not come up to its bound.
      obtain ⟨next, -, hnext, hcount⟩ := step s h hresult
      have := bounded next hnext
      exact ⟨s, .error exhausted, by rw [run, hresult], h, .inr ⟨rfl, by omega⟩⟩
  | succ budget ih =>
    cases hresult : L.result? s with
    | some a => exact ⟨s, .ok a, by rw [run, hresult], h, .inl ⟨a, rfl, hresult⟩⟩
    | none =>
      obtain ⟨next, hstep, hnext, hcount⟩ := step s h hresult
      obtain ⟨last, outcome, hrun, hlast, hends⟩ := ih hnext
      refine ⟨last, outcome, by rw [run, hresult, hstep]; exact hrun, hlast, ?_⟩
      exact hends.imp_right fun ⟨hexhausted, short⟩ => ⟨hexhausted, by omega⟩

/-- What is put in the queue is new there, and among the given nodes. -/
theorem Worklist.exists_added {n : Nat} {F : Type} (dependents : List (Fin n)) (w : Worklist n F) :
    (dependents.foldl enqueue w).visits = w.visits ∧
      ∃ added, (dependents.foldl enqueue w).queue = w.queue ++ added ∧ added.Nodup ∧
        ∀ i ∈ added, i ∈ dependents ∧ w.queued.get i = false := by
  induction dependents generalizing w with
  | nil => exact ⟨rfl, [], by simp⟩
  | cons d rest ih =>
    obtain ⟨hvisits, added, hqueue, nodup, hadded⟩ := ih (w.enqueue d)
    rw [List.foldl_cons]
    cases hd : w.queued.get d with
    | true =>
      have skip : w.enqueue d = w := if_pos hd
      rw [skip] at hvisits hqueue hadded ⊢
      exact ⟨hvisits, added, hqueue, nodup, fun i hi =>
        ⟨List.mem_cons_of_mem _ (hadded i hi).1, (hadded i hi).2⟩⟩
    | false =>
      have put : w.enqueue d = { w with
          progress := w.progress.record (.enqueued d)
          queue := w.queue ++ [d]
          queued := w.queued.set d.val true d.isLt } := if_neg (by simp [hd])
      -- `d` waits by the time that the rest is put in, so it is not put in again.
      have fresh : ∀ i ∈ added, d ≠ i ∧ w.queued.get i = false := by
        intro i hi
        have := (hadded i hi).2
        rw [put, get_set] at this
        split at this
        next => cases this
        next hne => exact ⟨hne, this⟩
      refine ⟨by rw [hvisits, put], d :: added, by rw [hqueue, put]; simp, ?_, fun i hi => ?_⟩
      · exact List.nodup_cons.2 ⟨fun hmem => (fresh d hmem).1 rfl, nodup⟩
      · obtain rfl | hi := List.mem_cons.1 hi
        · exact ⟨List.mem_cons_self, hd⟩
        · exact ⟨List.mem_cons_of_mem _ (hadded i hi).1, (fresh i hi).2⟩

namespace Equations

theorem countablePasses_lt_iff {n bound : Nat} (pos : 0 < n) :
    countablePasses n < bound ↔ maxCount < n * bound := by
  rw [countablePasses, Nat.div_lt_iff_lt_mul pos, Nat.mul_comm]

/-- If so many passes are more than a limit on visits allows for, then they are more than the limit
says, or their visits are more than can be counted. -/
theorem lt_or_lt_of_min_lt {n limit bound : Nat} (h : min (limit * n) maxCount < n * bound) :
    limit < bound ∨ maxCount < n * bound := by
  rw [min_lt_iff, Nat.mul_comm n] at h
  rw [Nat.mul_comm n]
  exact h.imp_left Nat.lt_of_mul_lt_mul_right

variable {n : Nat} {F : Type} {E : Equations n F}

/-- The equations have no gap at a node. -/
structure Complete (E : Equations n F) : Prop where
  sources : ∀ i, ∃ sources, E.sources i = .ok sources
  dependents : ∀ i, ∃ dependents, E.dependents i = .ok dependents

theorem Complete.exists_visit (complete : E.Complete) (store : Store n F) (i : Fin n) :
    ∃ v, E.visit store i = .ok v := by
  obtain ⟨x, hx⟩ : ∃ x, E.gather store i = .ok x := by
    by_cases hi : i = E.boundary
    · exact ⟨_, hi ▸ gather_boundary store⟩
    · obtain ⟨sources, hs⟩ := complete.sources i
      exact ⟨_, by rw [gather_of_ne hi, hs]; rfl⟩
  exact ⟨_, by rw [visit, hx]; rfl⟩

/-- The passes are counted, and there was a change for each of them, save for the last one if that
was quiet. -/
structure PassesPaid (E : Equations n F) (s : Rounds n F) : Prop where
  follows : E.Follows s.progress
  counted : s.progress.passes = s.tally.passes
  paid : s.tally.passes ≤ cost (fun _ => 1) s.progress.visits + if s.settled then 1 else 0

/-- The number of different nodes that draw on the output of a node. -/
def fanOut (E : Equations n F) (i : Fin n) : Nat :=
  match E.dependents i with
  | .ok dependents => dependents.toFinset.card
  | .error _ => 0

theorem fanOut_le (E : Equations n F) (i : Fin n) : E.fanOut i ≤ n := by
  unfold fanOut
  split
  · exact card_finset_fin_le _
  · exact Nat.zero_le _

/-- The visits are counted. Those made and those that wait are the first ones of all nodes, and
those paid for by a change at the one end of an edge. -/
structure VisitsPaid (E : Equations n F) (w : Worklist n F) : Prop where
  follows : E.Follows w.progress
  counted : w.progress.visits.length = w.visits
  paid : w.visits + w.queue.length ≤ n + cost E.fanOut w.progress.visits

variable [LE F] [DecidableLE F] [DecidableEq F]

theorem passes_sweep (check : Bool) (order : List (Fin n)) (p : Progress n F) (report : Change) :
    (E.sweep check order p report).1.passes = p.passes := by
  apply sweep_preserves (I := fun q => q.passes = p.passes) _ rfl
  intro q i h
  unfold advance
  split <;> exact h

theorem counts_pass {check : Bool} {order : List (Fin n)} {s next : Rounds n F}
    (h : E.pass check order s = (next, none)) :
    next.progress.passes = s.progress.passes + 1 ∧ next.tally.passes = s.tally.passes + 1 := by
  have passes := passes_sweep (E := E) check order s.progress .unchanged
  obtain ⟨p, report, hsweep, rfl⟩ := pass_eq_none h
  rw [hsweep] at passes
  exact ⟨(List.countP_cons_of_pos rfl).trans (congrArg (· + 1) passes), rfl⟩

theorem counts_visitNext {check : Bool} {w next : Worklist n F} (waits : w.queue ≠ [])
    (h : E.visitNext check w = (next, none)) :
    next.progress.visits.length = w.progress.visits.length + 1 ∧ next.visits = w.visits + 1 := by
  obtain ⟨i, rest, p, v, added, -, hadvance, -, rfl⟩ := visitNext_eq_none waits h
  rw [(Worklist.progress_foldl_enqueue added _).2, (Worklist.exists_added added _).1]
  exact ⟨congrArg List.length (advance_eq_ok hadvance).2.2.2, rfl⟩

variable (complete : E.Complete) (grows : E.Grows) (check : Bool)
include complete grows

theorem exists_advance (p : Progress n F) (i : Fin n) :
    ∃ next v, E.advance check p i = (next, .ok v) := by
  obtain ⟨v, hv⟩ := complete.exists_visit p.store i
  refine ⟨⟨p.store.put i v.left, .visited v :: p.events⟩, v, ?_⟩
  simp [advance, hv, grows.misstep?_eq_none hv]

/-! ### Rounds -/

/-- Every sweep goes through, and one that reports a change makes one. -/
theorem exists_sweep (order : List (Fin n)) (p : Progress n F) (report : Change) :
    ∃ q report', E.sweep check order p report = (q, .ok report') ∧
      cost (fun _ => 1) p.visits ≤ cost (fun _ => 1) q.visits ∧
      (report' = .changed →
        report = .changed ∨ cost (fun _ => 1) p.visits < cost (fun _ => 1) q.visits) := by
  induction order generalizing p report with
  | nil => exact ⟨p, report, rfl, le_rfl, .inl⟩
  | cons i rest ih =>
    obtain ⟨next, v, hadvance⟩ := exists_advance complete grows check p i
    obtain ⟨q, report', hsweep, hle, hchanged⟩ := ih next (report ||| v.report)
    have hnext := cost_cons (fun _ => 1) v p.visits
    rw [← (advance_eq_ok hadvance).2.2.2] at hnext
    refine ⟨q, report', by rw [sweep, hadvance]; exact hsweep, by omega, fun h => ?_⟩
    obtain h | h := hchanged h
    · cases report with
      | changed => exact .inl rfl
      | unchanged =>
        have hv : v.report = .changed := h
        rw [if_pos hv] at hnext
        exact .inr (by omega)
    · exact .inr (by omega)

/-- Every pass goes through, and the passes stay paid for. -/
theorem exists_pass (order : List (Fin n)) {s : Rounds n F} (h : E.PassesPaid s)
    (unsettled : s.settled = false) :
    ∃ next, E.pass check order s = (next, none) ∧ E.PassesPaid next ∧
      s.tally.passes < next.tally.passes := by
  obtain ⟨q, report, hsweep, hle, hchanged⟩ :=
    exists_sweep complete grows check order s.progress .unchanged
  have hpass : E.pass check order s = (⟨q.record (.passed (s.tally.passes + 1) report),
      ⟨s.tally.passes + 1, s.tally.visits + order.length⟩, report.isUnchanged⟩, none) := by
    rw [pass, hsweep]
  refine ⟨_, hpass,
    ⟨h.follows.pass hpass, (counts_pass hpass).1.trans (congrArg (· + 1) h.counted), ?_⟩,
    Nat.lt_succ_self _⟩
  have paid : s.tally.passes ≤ cost (fun _ => 1) s.progress.visits := by
    simpa [unsettled] using h.paid
  change s.tally.passes + 1 ≤ cost (fun _ => 1) q.visits + if report.isUnchanged then 1 else 0
  -- A quiet pass is the last one, which is allowed for; any other one made a change.
  cases report with
  | unchanged => simp [Change.isUnchanged, Change.isChanged]; omega
  | changed =>
    have more := (hchanged rfl).resolve_left Change.noConfusion
    omega

/-! ### The worklist -/

theorem exists_next {w : Worklist n F} (waits : w.queue ≠ []) :
    ∃ next, E.visitNext check w = (next, none) := by
  obtain ⟨i, rest, hqueue⟩ := List.exists_cons_of_ne_nil waits
  obtain ⟨p, v, hadvance⟩ := exists_advance complete grows check w.progress i
  obtain ⟨dependents, hd⟩ := complete.dependents i
  rw [visitNext_cons hqueue, hadvance, afterVisit, hd]
  split
  · exact ⟨_, rfl⟩
  · exact ⟨_, rfl⟩

/-- Every visit from the queue goes through, and the visits stay paid for. -/
theorem exists_visitNext {w : Worklist n F} (h : E.VisitsPaid w) (waits : w.queue ≠ []) :
    ∃ next, E.visitNext check w = (next, none) ∧ E.VisitsPaid next ∧ w.visits < next.visits := by
  obtain ⟨next, hstep⟩ := exists_next complete grows check waits
  obtain ⟨hvisited, hcount⟩ := counts_visitNext waits hstep
  refine ⟨next, hstep,
    ⟨h.follows.visitNext hstep, by rw [hvisited, hcount, h.counted], ?_⟩, by omega⟩
  obtain ⟨i, rest, p, v, dependents, hqueue, hadvance, hd, rfl⟩ := visitNext_eq_none waits hstep
  obtain ⟨hv, -, -, hvisits⟩ := advance_eq_ok hadvance
  obtain ⟨-, added, hadded, nodup, mem⟩ :=
    Worklist.exists_added dependents (w.visited i rest p)
  -- The nodes that are put in are new in the queue, so they are no more than the fan-out.
  have fan : added.length ≤ if v.report = .changed then E.fanOut i else 0 := by
    have among : added.toFinset ⊆ dependents.toFinset :=
      fun j hj => by simpa using (mem j (by simpa using hj)).1
    rw [← List.toFinset_card_of_nodup nodup]
    obtain ⟨quiet, rfl⟩ | ⟨changed, hd⟩ := hd
    · simpa [quiet] using among
    · rw [if_pos changed, fanOut, hd]
      exact Finset.card_le_card among
  have hcost := cost_cons E.fanOut v w.progress.visits
  rw [← hvisits, (visit_eq_ok_iff.1 hv).1] at hcost
  have paid := h.paid
  rw [hqueue, List.length_cons] at paid
  rw [hcount, hadded, (Worklist.progress_foldl_enqueue dependents _).2, List.length_append]
  change w.visits + 1 + (rest.length + added.length) ≤ n + cost E.fanOut p.visits
  omega

/-! ### Results -/

omit complete grows

/-- Rounds whose passes all go through and are bounded in number end with a result, or are not
allowed so many passes. -/
theorem solveInRounds_of_bounded {I : Rounds n F → Prop} {bound : Nat} {order : List (Fin n)}
    (bounded : ∀ s, I s → s.tally.passes ≤ bound) (first : I E.firstRound)
    (step : ∀ s, I s → s.settled = false → ∃ next, E.pass check order s = (next, none) ∧ I next ∧
      s.tally.passes < next.tally.passes) (limit? : Option Nat) :
    ∃ last outcome, E.solveInRounds check limit? order = (last.progress, outcome) ∧ I last ∧
      (outcome = .ok last.tally ∨
        (∃ limit, limit? = some limit ∧ outcome = .error (.limitReached limit) ∧ limit < bound) ∨
        outcome = .error .countExhausted ∧ countablePasses n < bound) := by
  have step' : ∀ s, I s → (E.roundLoop check order).result? s = none →
      ∃ next, E.pass check order s = (next, none) ∧ I next ∧
        s.tally.passes < next.tally.passes := by
    intro s hs hresult
    exact step s hs (unsettled_of_result hresult)
  obtain ⟨last, outcome, hrun, hlast, hends⟩ :=
    Loop.run_of_bounded (L := E.roundLoop check order) bounded step' first
  refine ⟨last, outcome, by rw [solveInRounds_eq, hrun]; rfl, hlast, ?_⟩
  obtain ⟨tally, rfl, hresult⟩ | ⟨rfl, short⟩ := hends
  · obtain ⟨-, rfl⟩ := result_roundLoop.1 hresult
    exact .inl rfl
  · rw [firstRound, Nat.zero_add] at short
    obtain ⟨limit, hlimit, hallowance⟩ | hallowance := passAllowance_cases n limit?
    · rw [hallowance] at short ⊢
      exact .inr (.inl ⟨limit, hlimit, rfl, short⟩)
    · rw [hallowance] at short ⊢
      exact .inr (.inr ⟨rfl, short⟩)

/-- A worklist whose visits all go through and are bounded in number is emptied, or it is not
allowed so many visits. -/
theorem solveByWorklist_of_bounded {I : Worklist n F → Prop} {bound : Nat} {order : List (Fin n)}
    (bounded : ∀ w, I w → w.visits ≤ bound) (first : I (E.firstVisit order))
    (step : ∀ w, I w → w.queue ≠ [] → ∃ next, E.visitNext check w = (next, none) ∧ I next ∧
      w.visits < next.visits) (limit? : Option Nat) :
    ∃ last outcome, E.solveByWorklist check limit? order = (last.progress, outcome) ∧ I last ∧
      (outcome = .ok ⟨last.passes, last.visits⟩ ∨
        (∃ limit, limit? = some limit ∧ outcome = .error (.limitReached limit) ∧
          min (limit * n) maxCount < bound) ∨
        outcome = .error .countExhausted ∧ maxCount < bound) := by
  obtain ⟨last, outcome, hrun, hlast, hends⟩ := Loop.run_of_bounded (L := E.visitLoop check) bounded
    (fun w hw hresult => step w hw (waits_of_result hresult)) first
  refine ⟨last, outcome, by rw [solveByWorklist_eq, hrun]; rfl, hlast, ?_⟩
  obtain ⟨tally, rfl, hresult⟩ | ⟨rfl, short⟩ := hends
  · obtain ⟨-, rfl⟩ := result_visitLoop.1 hresult
    exact .inl rfl
  · rw [firstVisit, Nat.zero_add] at short
    obtain ⟨limit, hlimit, hallowance⟩ | hallowance := visitAllowance_cases n limit?
    · rw [hallowance] at short ⊢
      exact .inr (.inl ⟨limit, hlimit, rfl, short⟩)
    · rw [hallowance] at short ⊢
      exact .inr (.inr ⟨rfl, short⟩)

variable {h : Nat} (bounded : E.ChangesAtMost h)
include complete grows bounded

theorem solveInRounds_ends (limit? : Option Nat) (order : List (Fin n)) :
    ∃ last outcome, E.solveInRounds check limit? order = (last, outcome) ∧
      last.passes ≤ n * h + 1 ∧
      ((∃ tally, outcome = .ok tally ∧ tally.passes = last.passes) ∨
        (∃ limit, limit? = some limit ∧ outcome = .error (.limitReached limit) ∧
          limit < n * h + 1) ∨
        outcome = .error .countExhausted ∧ countablePasses n < n * h + 1) := by
  have bound : ∀ s, E.PassesPaid s → s.tally.passes ≤ n * h + 1 := by
    rintro s ⟨follows, -, paid⟩
    have hcost : cost (fun _ => 1) s.progress.visits ≤ h * ∑ _ : Fin n, 1 :=
      cost_le (bounded follows) _
    rw [Finset.sum_const, Finset.card_univ, Fintype.card_fin, Nat.nsmul_eq_mul, Nat.mul_one,
      Nat.mul_comm] at hcost
    split at paid <;> omega
  have first : E.PassesPaid E.firstRound := ⟨follows_start, rfl, Nat.zero_le _⟩
  obtain ⟨last, outcome, hsolve, hlast, ends⟩ := solveInRounds_of_bounded check bound first
    (fun _ => exists_pass complete grows check order) limit?
  refine ⟨last.progress, outcome, hsolve, hlast.counted ▸ bound last hlast, ends.imp_left ?_⟩
  exact fun hok => ⟨last.tally, hok, hlast.counted.symm⟩

theorem solveByWorklist_ends (limit? : Option Nat) {order : List (Fin n)} (nodup : order.Nodup) :
    ∃ last outcome, E.solveByWorklist check limit? order = (last, outcome) ∧
      last.visits.length ≤ n + h * ∑ i, E.fanOut i ∧
      ((∃ tally, outcome = .ok tally ∧ tally.visits = last.visits.length) ∨
        (∃ limit, limit? = some limit ∧ outcome = .error (.limitReached limit) ∧
          min (limit * n) maxCount < n + h * ∑ i, E.fanOut i) ∨
        outcome = .error .countExhausted ∧ maxCount < n + h * ∑ i, E.fanOut i) := by
  have bound : ∀ w, E.VisitsPaid w → w.visits ≤ n + h * ∑ i, E.fanOut i := by
    rintro w ⟨follows, -, paid⟩
    have := cost_le (bounded follows) E.fanOut
    omega
  have first : E.VisitsPaid (E.firstVisit order) := by
    refine ⟨follows_start, rfl, ?_⟩
    have : order.length ≤ n := by simpa using nodup.length_le_card
    change 0 + order.length ≤ _
    omega
  obtain ⟨last, outcome, hsolve, hlast, ends⟩ := solveByWorklist_of_bounded check bound first
    (fun _ => exists_visitNext complete grows check) limit?
  refine ⟨last.progress, outcome, hsolve, hlast.counted ▸ bound last hlast, ends.imp_left ?_⟩
  exact fun hok => ⟨_, hok, hlast.counted.symm⟩

/-- Under either schedule, work on the equations ends after a number of passes or visits, and with a
result unless it is not allowed so many. -/
theorem solve_ends {order : List (Fin n)} (horder : E.order = .ok order) (nodup : order.Nodup)
    (settings : Settings) :
    ∃ last outcome, E.solve settings = (last, outcome) ∧
      (settings.strategy = .roundRobin → last.passes ≤ n * h + 1) ∧
      (settings.strategy = .worklist → last.visits.length ≤ n + h * ∑ i, E.fanOut i) ∧
      ((∃ tally, outcome = .ok tally ∧
          (settings.strategy = .roundRobin → tally.passes = last.passes) ∧
          (settings.strategy = .worklist → tally.visits = last.visits.length)) ∨
        (∃ limit, settings.maxPasses = some limit ∧ outcome = .error (.limitReached limit) ∧
          (limit < n * h + 1 ∨ maxCount < n * (n * h + 1))) ∨
        outcome = .error .countExhausted ∧ maxCount < n * (n * h + 1)) := by
  unfold solve
  rw [horder]
  cases settings.strategy with
  | roundRobin =>
    obtain ⟨last, outcome, hsolve, hle, ends⟩ := solveInRounds_ends complete grows
      settings.checkTransfer bounded settings.maxPasses order
    refine ⟨last, outcome, hsolve, fun _ => hle, nofun, ?_⟩
    obtain ⟨tally, hok, hpasses⟩ | ⟨limit, hlimit, herror, short⟩ | ⟨herror, short⟩ := ends
    · exact .inl ⟨tally, hok, fun _ => hpasses, nofun⟩
    · exact .inr (.inl ⟨limit, hlimit, herror, .inl short⟩)
    · exact .inr (.inr ⟨herror, (countablePasses_lt_iff E.boundary.pos).1 short⟩)
  | worklist =>
    obtain ⟨last, outcome, hsolve, hle, ends⟩ := solveByWorklist_ends complete grows
      settings.checkTransfer bounded settings.maxPasses nodup
    -- A node has at most `n` dependents, so the visits are within those of so many passes.
    have allEdges : n + h * ∑ i, E.fanOut i ≤ n * (n * h + 1) := by
      have hsum : ∑ i, E.fanOut i ≤ n * n := by
        simpa using Finset.sum_le_card_nsmul Finset.univ E.fanOut n fun i _ => E.fanOut_le i
      have := Nat.mul_le_mul_left h hsum
      calc n + h * ∑ i, E.fanOut i ≤ n + h * (n * n) := by omega
        _ = n * (n * h + 1) := by ring
    refine ⟨last, outcome, hsolve, nofun, fun _ => hle, ?_⟩
    obtain ⟨tally, hok, hvisits⟩ | ⟨limit, hlimit, herror, short⟩ | ⟨herror, short⟩ := ends
    · exact .inl ⟨tally, hok, nofun, fun _ => hvisits⟩
    · exact .inr (.inl ⟨limit, hlimit, herror, lt_or_lt_of_min_lt (short.trans_le allEdges)⟩)
    · exact .inr (.inr ⟨herror, short.trans_le allEdges⟩)

end Equations

end FlowFacts

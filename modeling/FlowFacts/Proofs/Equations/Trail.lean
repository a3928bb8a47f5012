import FlowFacts.Dataflow.Run

/-!
# Trails of visits

Every way of solving equations is a schedule of visits. `Equations.Trail` relates a sequence of
visits, made one after the other from the seed, to the store that they leave. What a step of a
schedule can do is said here once: a pass (`pass_eq_none`), a visit from the queue
(`visitNext_eq_none`), and what either keeps because each visit does (`Equations.Keeps`). So both
schedules follow a trail, whatever they end with (`Equations.trail_solve`), and what holds of the
seed and is kept by each visit holds of every store (`Trail.invariant`). What holds at first and is
kept by each step holds where a schedule ends with a result (`Equations.invariant_of_solveInRounds`,
`Equations.invariant_of_solveByWorklist`).
-/

namespace FlowFacts

/-! ### Loops -/

namespace Loop

variable {σ ε α : Type} {L : Loop σ ε α} {exhausted : ε}

theorem run_preserves {I : σ → Prop} (keep : ∀ s, I s → I (L.step s).1) {budget : Nat} {s : σ}
    (h : I s) : I (L.run exhausted budget s).1 := by
  induction budget generalizing s with
  | zero => unfold run; split <;> exact h
  | succ budget ih =>
    unfold run
    split
    · exact h
    · split
      next next _ hstep => simpa only [hstep] using keep s h
      next next hstep => exact ih (by simpa only [hstep] using keep s h)

/-- A loop comes through a state: it starts there, or a step that does not stop it leads there. -/
inductive ComesThrough (L : Loop σ ε α) (first : σ) : σ → Prop
  | start : ComesThrough L first first
  | step {s next : σ} : ComesThrough L first s → L.result? s = none → L.step s = (next, none) →
    ComesThrough L first next

theorem ComesThrough.invariant {I : σ → Prop}
    (keep : ∀ s next, I s → L.result? s = none → L.step s = (next, none) → I next)
    {first s : σ} (start : I first) (h : L.ComesThrough first s) : I s := by
  induction h with
  | start => exact start
  | step _ hresult hstep ih => exact keep _ _ ih hresult hstep

/-- A run that gives a result comes to a state that has it. On the way there, no step stopped. -/
theorem ComesThrough.of_run {first : σ} {budget : Nat} {s last : σ} {a : α}
    (h : L.ComesThrough first s) (hrun : L.run exhausted budget s = (last, .ok a)) :
    L.ComesThrough first last ∧ L.result? last = some a := by
  induction budget generalizing s with
  | zero =>
    unfold run at hrun
    split at hrun <;> cases hrun
    exact ⟨h, ‹_›⟩
  | succ budget ih =>
    unfold run at hrun
    split at hrun
    · cases hrun
      exact ⟨h, ‹_›⟩
    · split at hrun
      next => cases hrun
      next next hstep => exact ih (h.step ‹_› hstep) hrun

/-- What holds at first and is kept by each step that does not stop holds where a run has its
result. -/
theorem run_eq_ok {I : σ → Prop}
    (keep : ∀ s next, I s → L.result? s = none → L.step s = (next, none) → I next)
    {budget : Nat} {s last : σ} {a : α} (h : I s)
    (hrun : L.run exhausted budget s = (last, .ok a)) : I last ∧ L.result? last = some a := by
  obtain ⟨comes, result⟩ := ComesThrough.start.of_run hrun
  exact ⟨comes.invariant keep h, result⟩

end Loop

/-! ### Events and visits -/

/-- The visit that an event is, if it is one. -/
def Event.visit? {n : Nat} {F : Type} : Event n F → Option (Visit n F)
  | visited v => some v
  | passed .. | enqueued _ => none

/-- The visits so far, the latest first. -/
def Progress.visits {n : Nat} {F : Type} (p : Progress n F) : List (Visit n F) :=
  p.events.filterMap Event.visit?

theorem Progress.visits_record {n : Nat} {F : Type} (p : Progress n F) {e : Event n F}
    (h : e.visit? = none) : (p.record e).visits = p.visits := List.filterMap_cons_none h

def Event.isPassed {n : Nat} {F : Type} : Event n F → Bool
  | passed .. => true
  | visited _ | enqueued _ => false

/-- The number of passes that are complete. -/
def Progress.passes {n : Nat} {F : Type} (p : Progress n F) : Nat := p.events.countP Event.isPassed

theorem Change.eq_iff {c d : Change} : c = d ↔ (c = changed ↔ d = changed) := by
  cases c <;> cases d <;> decide

/-- A transfer function takes facts to others, and keeps its contract in doing so. -/
structure Yields {F : Type} [LE F] (transfer : Sides F → Sides F × Change) (found left : Sides F) :
    Prop where
  left_eq : (transfer found).1 = left
  output_le : found.output ≤ left.output
  report_iff : (transfer found).2 = .changed ↔ left.output ≠ found.output

namespace Visit

variable {n : Nat} {F : Type} [LE F] {v : Visit n F}

/-- The transfer function kept its contract. -/
structure Sound (v : Visit n F) : Prop where
  output_le : v.found.output ≤ v.left.output
  report_iff : v.report = .changed ↔ v.left.output ≠ v.found.output

variable [DecidableEq F]

omit [LE F] in
theorem actual_eq_changed_iff : v.actual = .changed ↔ v.left.output ≠ v.found.output := by
  rw [actual, Change.ofBool_eq_changed_iff, decide_eq_true_iff, ne_comm]

theorem sound_iff : v.Sound ↔ v.found.output ≤ v.left.output ∧ v.actual = v.report := by
  rw [eq_comm, Change.eq_iff, actual_eq_changed_iff]
  exact ⟨fun h => ⟨h.output_le, h.report_iff⟩, fun h => ⟨h.1, h.2⟩⟩

variable [DecidableLE F]

theorem misstep?_eq_none_iff : v.misstep? = none ↔ v.Sound := by
  rw [sound_iff, misstep?]
  split
  next shrank => simp [shrank]
  next kept => split <;> simp_all

/-- The breach of contract is that the output shrank, if it did, and else that the report is
wrong. -/
theorem misstep?_eq_some_iff {what : Misstep} :
    v.misstep? = some what ↔ ¬ v.found.output ≤ v.left.output ∧ what = .shrank ∨
      v.found.output ≤ v.left.output ∧ v.actual ≠ v.report ∧
        what = .misreported v.report v.actual := by
  rw [misstep?]
  split
  next shrank => simp [shrank, eq_comm]
  next kept =>
    rw [Decidable.not_not] at kept
    split
    next differs => simp [kept, differs, eq_comm]
    next same => simp_all

end Visit

/-- The worklist once the node at the head of its queue was visited and waits no longer. -/
def Worklist.visited {n : Nat} {F : Type} (w : Worklist n F) (i : Fin n) (rest : List (Fin n))
    (p : Progress n F) : Worklist n F :=
  ⟨p, rest, w.queued.set i.val false i.isLt, w.visits + 1⟩

theorem Worklist.foldl_enqueue_preserves {n : Nat} {F : Type} {I : Progress n F → Prop}
    (record : ∀ p (e : Event n F), e.visit? = none → I p → I (p.record e))
    (dependents : List (Fin n)) {w : Worklist n F} (h : I w.progress) :
    I (dependents.foldl enqueue w).progress := by
  induction dependents generalizing w with
  | nil => exact h
  | cons i rest ih =>
    apply ih
    unfold enqueue
    split
    · exact h
    · exact record w.progress (.enqueued i) rfl h

theorem Worklist.progress_foldl_enqueue {n : Nat} {F : Type} (dependents : List (Fin n))
    (w : Worklist n F) :
    (dependents.foldl enqueue w).progress.store = w.progress.store ∧
      (dependents.foldl enqueue w).progress.visits = w.progress.visits := by
  apply foldl_enqueue_preserves (I := fun p =>
    p.store = w.progress.store ∧ p.visits = w.progress.visits) _ dependents ⟨rfl, rfl⟩
  rintro p e he ⟨store, visits⟩
  exact ⟨store, (p.visits_record he).trans visits⟩

/-- What holds of the facts put in and of those of the other nodes holds of all facts. -/
theorem Store.forall_put {n : Nat} {F : Type} {P : Fin n → Sides F → Prop} {store : Store n F}
    {i : Fin n} {facts : Sides F} (put : P i facts) (others : ∀ j, j ≠ i → P j (store.get j))
    (j : Fin n) : P j ((store.put i facts).get j) := by
  rw [Store.get_put]
  split
  next same => exact same ▸ put
  next other => exact others j (Ne.symm other)

namespace Equations

variable {n : Nat} {F : Type} {E : Equations n F}

/-- What a visit is: an input is collected, the output is the one that was there, and the transfer
function is applied to the two. -/
theorem visit_eq_ok_iff {store : Store n F} {i : Fin n} {v : Visit n F} :
    E.visit store i = .ok v ↔
      v.node = i ∧ E.gather store i = .ok v.found.input ∧
        v.found.output = (store.get i).output ∧ E.transfer i v.found = (v.left, v.report) := by
  obtain ⟨node, ⟨input, output⟩, left, report⟩ := v
  unfold visit
  cases hg : E.gather store i with
  | error e => simp [Except.map]
  | ok x =>
    simp only [Except.map, Except.ok.injEq, visitWith, Visit.mk.injEq, Sides.mk.injEq]
    constructor
    · rintro ⟨rfl, ⟨rfl, rfl⟩, rfl, rfl⟩
      exact ⟨rfl, rfl, rfl, rfl⟩
    · rintro ⟨rfl, rfl, rfl, h⟩
      exact ⟨rfl, ⟨rfl, rfl⟩, congrArg Prod.fst h, congrArg Prod.snd h⟩

theorem gather_boundary (store : Store n F) :
    E.gather store E.boundary = .ok (store.get E.boundary).input := if_pos rfl

theorem gather_of_ne {store : Store n F} {i : Fin n} (h : i ≠ E.boundary) :
    E.gather store i = (E.sources i).map (E.meetOver store) := if_neg h

theorem gather_eq_ok_iff {store : Store n F} {i : Fin n} {x : F} :
    E.gather store i = .ok x ↔
      i = E.boundary ∧ x = (store.get i).input ∨
        i ≠ E.boundary ∧ ∃ sources, E.sources i = .ok sources ∧ x = E.meetOver store sources := by
  by_cases hi : i = E.boundary
  · simp [gather, hi, eq_comm]
  · cases hs : E.sources i <;> simp [gather, hi, hs, Except.map, eq_comm]

theorem meetOver_congr {s t : Store n F} {sources : List (Fin n)}
    (h : ∀ j ∈ sources, (s.get j).output = (t.get j).output) :
    E.meetOver s sources = E.meetOver t sources :=
  List.foldl_rel rfl fun j hj _ _ same => by rw [h j hj, same]

/-- What a node collects depends on the outputs of its sources, or, at the boundary, on the input
that is there. -/
theorem gather_congr {s t : Store n F} {i : Fin n}
    (own : i = E.boundary → (s.get i).input = (t.get i).input)
    (outputs : i ≠ E.boundary → ∀ sources, E.sources i = .ok sources →
      ∀ j ∈ sources, (s.get j).output = (t.get j).output) :
    E.gather s i = E.gather t i := by
  by_cases hi : i = E.boundary
  · rw [gather, gather, if_pos hi, if_pos hi, own hi]
  · rw [gather_of_ne hi, gather_of_ne hi]
    cases hs : E.sources i with
    | error e => rfl
    | ok sources => exact congrArg Except.ok (meetOver_congr (outputs hi sources hs))

/-- `E.Trail visits store`: the visits, the latest first, lead from the seed to the store. -/
inductive Trail (E : Equations n F) : List (Visit n F) → Store n F → Prop
  | seed : Trail E [] E.seed
  | visit {visits store i v} :
    Trail E visits store → E.visit store i = .ok v → Trail E (v :: visits) (store.put i v.left)

/-- What holds of the seed at every node, and of what a visit leaves behind, holds on every
trail. -/
theorem Trail.invariant {P : Fin n → Sides F → Prop} (seed : ∀ i, P i (E.seed.get i))
    (visit : ∀ store i v, (∀ j, P j (store.get j)) → E.visit store i = .ok v → P i v.left)
    {visits : List (Visit n F)} {store : Store n F} (h : E.Trail visits store) (i : Fin n) :
    P i (store.get i) := by
  induction h generalizing i with
  | seed => exact seed i
  | visit _ hv ih => exact Store.forall_put (visit _ _ _ ih hv) (fun j _ => ih j) i

/-- Each visit on a trail is an application of the transfer function. -/
theorem Trail.transfer_eq {visits : List (Visit n F)} {store : Store n F} (h : E.Trail visits store)
    {v : Visit n F} (hv : v ∈ visits) : E.transfer v.node v.found = (v.left, v.report) := by
  induction h with
  | seed => cases hv
  | visit _ hw ih =>
    rcases List.mem_cons.1 hv with rfl | hv
    · obtain ⟨rfl, -, -, htransfer⟩ := visit_eq_ok_iff.1 hw
      exact htransfer
    · exact ih hv

/-- The progress so far follows a trail. -/
def Follows (E : Equations n F) (p : Progress n F) : Prop := E.Trail p.visits p.store

theorem follows_start : E.Follows E.start := .seed

theorem Follows.record {p : Progress n F} (h : E.Follows p) {e : Event n F} (he : e.visit? = none) :
    E.Follows (p.record e) := by
  rw [Follows, p.visits_record he]
  exact h

/-! ### The schedules -/

variable [LE F] [DecidableLE F] [DecidableEq F]

theorem follows_advance {check : Bool} {p : Progress n F} {i : Fin n} (h : E.Follows p) :
    E.Follows (E.advance check p i).1 := by
  unfold advance
  split
  next => exact h
  next hv => exact .visit h hv

/-- An advance that does not stop is a visit that passed its checks. -/
theorem advance_eq_ok {check : Bool} {p next : Progress n F} {i : Fin n} {v : Visit n F}
    (h : E.advance check p i = (next, .ok v)) :
    E.visit p.store i = .ok v ∧ (check = true → v.misstep? = none) ∧
      next.store = p.store.put i v.left ∧ next.visits = v :: p.visits := by
  unfold advance at h
  split at h
  next => cases h
  next v' hv =>
    simp only [Prod.mk.injEq] at h
    obtain ⟨rfl, h⟩ := h
    split at h
    next => cases h
    next clean =>
      cases h
      exact ⟨hv, fun hc => by simpa [hc] using clean, rfl, rfl⟩

/-- A pass that does not stop is a sweep that does not stop, and is noted and counted. -/
theorem pass_eq_none {check : Bool} {order : List (Fin n)} {s next : Rounds n F}
    (h : E.pass check order s = (next, none)) :
    ∃ p report, E.sweep check order s.progress .unchanged = (p, .ok report) ∧
      next = ⟨p.record (.passed (s.tally.passes + 1) report),
        ⟨s.tally.passes + 1, s.tally.visits + order.length⟩, report.isUnchanged⟩ := by
  unfold pass at h
  split at h
  next => cases h
  next p report hsweep =>
    cases h
    exact ⟨p, report, hsweep, rfl⟩

/-- The worklist after the visit of the node at the head of its queue, however that went. -/
def afterVisit (E : Equations n F) (w : Worklist n F) (i : Fin n) (rest : List (Fin n)) :
    Progress n F × Except (Stop n) (Visit n F) → Worklist n F × Option (Stop n)
  | (next, .error stop) => (w.visited i rest next, some stop)
  | (next, .ok v) =>
    if v.report.isChanged then
      match E.dependents i with
      | .ok dependents => (dependents.foldl Worklist.enqueue (w.visited i rest next), none)
      | .error e => (w.visited i rest next, some (.gap e))
    else (w.visited i rest next, none)

theorem visitNext_nil {check : Bool} {w : Worklist n F} (h : w.queue = []) :
    E.visitNext check w = (w, none) := by
  simp only [visitNext, h]

theorem visitNext_cons {check : Bool} {w : Worklist n F} {i : Fin n} {rest : List (Fin n)}
    (h : w.queue = i :: rest) :
    E.visitNext check w = E.afterVisit w i rest (E.advance check w.progress i) := by
  unfold visitNext
  rw [h]
  rfl

/-- A visit from the queue that does not stop is an advance that does not stop. If it reports a
change, the dependents of its node are put in the queue, and else no node is. -/
theorem visitNext_eq_none {check : Bool} {w next : Worklist n F} (waits : w.queue ≠ [])
    (h : E.visitNext check w = (next, none)) :
    ∃ i rest p v added, w.queue = i :: rest ∧ E.advance check w.progress i = (p, .ok v) ∧
      (v.report = .unchanged ∧ added = [] ∨ v.report = .changed ∧ E.dependents i = .ok added) ∧
      next = added.foldl Worklist.enqueue (w.visited i rest p) := by
  obtain ⟨i, rest, hqueue⟩ := List.exists_cons_of_ne_nil waits
  rw [visitNext_cons hqueue] at h
  rcases hadvance : E.advance check w.progress i with ⟨p, stop | v⟩
  · rw [hadvance] at h
    cases h
  · rw [hadvance, afterVisit] at h
    cases hreport : v.report with
    | unchanged =>
      rw [hreport] at h
      cases h
      exact ⟨i, rest, p, v, [], hqueue, hadvance, .inl ⟨hreport, rfl⟩, rfl⟩
    | changed =>
      rw [hreport] at h
      cases hd : E.dependents i with
      | error e =>
        rw [hd] at h
        cases h
      | ok dependents =>
        rw [hd] at h
        cases h
        exact ⟨i, rest, p, v, dependents, hqueue, hadvance, .inr ⟨hreport, hd⟩, rfl⟩

theorem unsettled_of_result {check : Bool} {order : List (Fin n)} {s : Rounds n F}
    (h : (E.roundLoop check order).result? s = none) : s.settled = false := by
  simpa [roundLoop] using h

theorem result_roundLoop {check : Bool} {order : List (Fin n)} {s : Rounds n F} {tally : Tally} :
    (E.roundLoop check order).result? s = some tally ↔ s.settled = true ∧ s.tally = tally := by
  simp [roundLoop]

theorem waits_of_result {check : Bool} {w : Worklist n F}
    (h : (E.visitLoop check).result? w = none) : w.queue ≠ [] := by
  intro hnil
  simp [visitLoop, hnil] at h

theorem result_visitLoop {check : Bool} {w : Worklist n F} {tally : Tally} :
    (E.visitLoop check).result? w = some tally ↔ w.queue = [] ∧ ⟨w.passes, w.visits⟩ = tally := by
  simp [visitLoop]

/-! ### What a limit allows -/

/-- The number of steps that a schedule may take, and what is said when they are used up. -/
structure Allowance (n : Nat) where
  steps : Nat
  exhausted : Stop n

/-- A limit beyond what can be counted is as good as none. -/
def passAllowance (n : Nat) : Option Nat → Allowance n
  | some limit =>
    if limit ≤ countablePasses n then ⟨limit, .limitReached limit⟩
    else ⟨countablePasses n, .countExhausted⟩
  | none => ⟨countablePasses n, .countExhausted⟩

/-- Each pass is worth as many visits as there are nodes. -/
def visitAllowance (n : Nat) : Option Nat → Allowance n
  | some limit => ⟨min (limit * n) maxCount, .limitReached limit⟩
  | none => ⟨maxCount, .countExhausted⟩

theorem passAllowance_cases (n : Nat) (limit? : Option Nat) :
    (∃ limit, limit? = some limit ∧ passAllowance n limit? = ⟨limit, .limitReached limit⟩) ∨
      passAllowance n limit? = ⟨countablePasses n, .countExhausted⟩ := by
  rcases limit? with _ | limit
  · exact .inr rfl
  · by_cases few : limit ≤ countablePasses n
    · exact .inl ⟨limit, rfl, if_pos few⟩
    · exact .inr (if_neg few)

theorem visitAllowance_cases (n : Nat) (limit? : Option Nat) :
    (∃ limit, limit? = some limit ∧
        visitAllowance n limit? = ⟨min (limit * n) maxCount, .limitReached limit⟩) ∨
      visitAllowance n limit? = ⟨maxCount, .countExhausted⟩ := by
  rcases limit? with _ | limit
  · exact .inr rfl
  · exact .inl ⟨limit, rfl, rfl⟩

theorem solveInRounds_eq (check : Bool) (limit? : Option Nat) (order : List (Fin n)) :
    E.solveInRounds check limit? order =
      ((E.roundLoop check order).run (passAllowance n limit?).exhausted
        (passAllowance n limit?).steps E.firstRound).map Rounds.progress id := by
  unfold solveInRounds passAllowance
  cases limit? with
  | none => rfl
  | some limit =>
    by_cases h : limit ≤ countablePasses n <;> simp only [h, if_true, if_false] <;> rfl

theorem run_of_solveInRounds {check : Bool} {limit? : Option Nat} {order : List (Fin n)}
    {last : Progress n F} {outcome : Except (Stop n) Tally}
    (h : E.solveInRounds check limit? order = (last, outcome)) :
    ∃ s, (E.roundLoop check order).run (passAllowance n limit?).exhausted
      (passAllowance n limit?).steps E.firstRound = (s, outcome) ∧ s.progress = last := by
  rw [solveInRounds_eq] at h
  obtain ⟨hlast, houtcome⟩ := Prod.mk.inj h
  exact ⟨_, Prod.ext rfl houtcome, hlast⟩

theorem solveByWorklist_eq (check : Bool) (limit? : Option Nat) (order : List (Fin n)) :
    E.solveByWorklist check limit? order =
      ((E.visitLoop check).run (visitAllowance n limit?).exhausted
        (visitAllowance n limit?).steps (E.firstVisit order)).map Worklist.progress id := by
  have unlimited : E.solveByWorklist check none order =
      ((E.visitLoop check).run .countExhausted maxCount (E.firstVisit order)).map
        Worklist.progress id := by
    unfold solveByWorklist
    rfl
  cases limit? with
  | none => exact unlimited
  | some limit => rfl

theorem run_of_solveByWorklist {check : Bool} {limit? : Option Nat} {order : List (Fin n)}
    {last : Progress n F} {outcome : Except (Stop n) Tally}
    (h : E.solveByWorklist check limit? order = (last, outcome)) :
    ∃ w, (E.visitLoop check).run (visitAllowance n limit?).exhausted
      (visitAllowance n limit?).steps (E.firstVisit order) = (w, outcome) ∧ w.progress = last := by
  rw [solveByWorklist_eq] at h
  obtain ⟨hlast, houtcome⟩ := Prod.mk.inj h
  exact ⟨_, Prod.ext rfl houtcome, hlast⟩

/-- What holds before the first pass and is kept by each one holds where rounds end with a
result. -/
theorem invariant_of_solveInRounds {I : Rounds n F → Prop} {check : Bool} {limit? : Option Nat}
    {order : List (Fin n)} {last : Progress n F} {tally : Tally} (first : I E.firstRound)
    (keep : ∀ s next, I s → s.settled = false → E.pass check order s = (next, none) → I next)
    (h : E.solveInRounds check limit? order = (last, .ok tally)) :
    ∃ s, I s ∧ s.settled = true ∧ s.progress = last ∧ s.tally = tally := by
  obtain ⟨s, hrun, hlast⟩ := run_of_solveInRounds h
  obtain ⟨inv, result⟩ := Loop.run_eq_ok
    (fun s next hs hresult hstep => keep s next hs (unsettled_of_result hresult) hstep) first hrun
  obtain ⟨settled, htally⟩ := result_roundLoop.1 result
  exact ⟨s, inv, settled, hlast, htally⟩

/-- What holds before the first visit and is kept by each one holds where no node waits any
longer. -/
theorem invariant_of_solveByWorklist {I : Worklist n F → Prop} {check : Bool} {limit? : Option Nat}
    {order : List (Fin n)} {last : Progress n F} {tally : Tally} (first : I (E.firstVisit order))
    (keep : ∀ w next, I w → w.queue ≠ [] → E.visitNext check w = (next, none) → I next)
    (h : E.solveByWorklist check limit? order = (last, .ok tally)) :
    ∃ w, I w ∧ w.queue = [] ∧ w.progress = last ∧ ⟨w.passes, w.visits⟩ = tally := by
  obtain ⟨w, hrun, hlast⟩ := run_of_solveByWorklist h
  obtain ⟨inv, result⟩ := Loop.run_eq_ok
    (fun w next hw hresult hstep => keep w next hw (waits_of_result hresult) hstep) first hrun
  obtain ⟨done, htally⟩ := result_visitLoop.1 result
  exact ⟨w, inv, done, hlast, htally⟩

/-- Work with a result followed one of the two schedules, in an order of all visits. -/
theorem solve_eq_ok {settings : Settings} {last : Progress n F} {tally : Tally}
    (h : E.solve settings = (last, .ok tally)) :
    ∃ order, E.order = .ok order ∧
      (settings.strategy = .roundRobin ∧
          E.solveInRounds settings.checkTransfer settings.maxPasses order = (last, .ok tally) ∨
        settings.strategy = .worklist ∧
          E.solveByWorklist settings.checkTransfer settings.maxPasses order =
            (last, .ok tally)) := by
  unfold solve at h
  cases horder : E.order with
  | error e =>
    rw [horder] at h
    cases h
  | ok order =>
    rw [horder] at h
    refine ⟨order, rfl, ?_⟩
    cases hstrategy : settings.strategy with
    | roundRobin =>
      rw [hstrategy] at h
      exact .inl ⟨rfl, h⟩
    | worklist =>
      rw [hstrategy] at h
      exact .inr ⟨rfl, h⟩

/-! ### What a schedule keeps -/

/-- What is said of the progress stays true with every advance, and with a note of anything else. -/
structure Keeps (E : Equations n F) (check : Bool) (I : Progress n F → Prop) : Prop where
  advance : ∀ p i, I p → I (E.advance check p i).1
  record : ∀ p (e : Event n F), e.visit? = none → I p → I (p.record e)

section Schedules

variable {check : Bool} {I : Progress n F → Prop}

theorem sweep_preserves (advance : ∀ p i, I p → I (E.advance check p i).1) {order : List (Fin n)}
    {p : Progress n F} {report : Change} (h : I p) : I (E.sweep check order p report).1 := by
  induction order generalizing p report with
  | nil => exact h
  | cons i rest ih =>
    have hi := advance p i h
    unfold sweep
    split
    next heq => rwa [heq] at hi
    next heq => rw [heq] at hi; exact ih hi

theorem Keeps.pass (keeps : E.Keeps check I) {order : List (Fin n)} {s : Rounds n F}
    (h : I s.progress) : I (E.pass check order s).1.progress := by
  have hp : I (E.sweep check order s.progress .unchanged).1 := sweep_preserves keeps.advance h
  unfold Equations.pass
  split
  next heq => rwa [heq] at hp
  next heq =>
    rw [heq] at hp
    exact keeps.record _ _ rfl hp

omit [LE F] [DecidableLE F] [DecidableEq F] in
/-- However a visit from the queue went, only notes are taken after it. -/
theorem afterVisit_preserves (record : ∀ p (e : Event n F), e.visit? = none → I p → I (p.record e))
    (w : Worklist n F) (i : Fin n) (rest : List (Fin n))
    {a : Progress n F × Except (Stop n) (Visit n F)} (h : I a.1) :
    I (E.afterVisit w i rest a).1.progress := by
  rcases a with ⟨next, stop | v⟩
  · exact h
  · unfold afterVisit
    dsimp only
    split
    · split
      next dependents _ => exact Worklist.foldl_enqueue_preserves record dependents h
      next => exact h
    · exact h

theorem Keeps.visitNext (keeps : E.Keeps check I) {w : Worklist n F} (h : I w.progress) :
    I (E.visitNext check w).1.progress := by
  cases hqueue : w.queue with
  | nil =>
    rw [visitNext_nil hqueue]
    exact h
  | cons i rest =>
    rw [visitNext_cons hqueue]
    exact afterVisit_preserves keeps.record w i rest (keeps.advance w.progress i h)

theorem Keeps.solve {settings : Settings} (keeps : E.Keeps settings.checkTransfer I)
    (start : I E.start) : I (E.solve settings).1 := by
  unfold Equations.solve
  split
  next => exact start
  next order _ =>
    split
    · rw [solveInRounds_eq]
      exact Loop.run_preserves (I := fun s : Rounds n F => I s.progress) (fun _ => keeps.pass) start
    · rw [solveByWorklist_eq]
      exact Loop.run_preserves (I := fun w : Worklist n F => I w.progress)
        (fun _ => keeps.visitNext) start

end Schedules

section

variable {check : Bool}

theorem keeps_follows : E.Keeps check E.Follows where
  advance _ _ := follows_advance
  record _ _ he h := h.record he

theorem Follows.advance {p next : Progress n F} {i : Fin n} {v : Visit n F} (h : E.Follows p)
    (hadvance : E.advance check p i = (next, .ok v)) : E.Follows next := by
  have follows : E.Follows (E.advance check p i).1 := follows_advance h
  rwa [hadvance] at follows

theorem Follows.sweep {order : List (Fin n)} {p q : Progress n F} {report report' : Change}
    (h : E.Follows p) (hsweep : E.sweep check order p report = (q, .ok report')) : E.Follows q := by
  have follows : E.Follows (E.sweep check order p report).1 :=
    sweep_preserves (fun _ _ => follows_advance) h
  rwa [hsweep] at follows

theorem Follows.pass {order : List (Fin n)} {s next : Rounds n F} (h : E.Follows s.progress)
    (hstep : E.pass check order s = (next, none)) : E.Follows next.progress := by
  have follows : E.Follows (E.pass check order s).1.progress := keeps_follows.pass h
  rwa [hstep] at follows

theorem Follows.visitNext {w next : Worklist n F} (h : E.Follows w.progress)
    (hstep : E.visitNext check w = (next, none)) : E.Follows next.progress := by
  have follows : E.Follows (E.visitNext check w).1.progress := keeps_follows.visitNext h
  rwa [hstep] at follows

end

/-- However equations are solved, and whatever comes of it, the facts are those of a trail. -/
theorem trail_solve (settings : Settings) :
    E.Trail (E.solve settings).1.visits (E.solve settings).1.store :=
  keeps_follows.solve follows_start

theorem trail_of_solve {settings : Settings} {last : Progress n F}
    {outcome : Except (Stop n) Tally} (h : E.solve settings = (last, outcome)) :
    E.Trail last.visits last.store := by
  have trail := E.trail_solve settings
  rwa [h] at trail

end Equations

end FlowFacts

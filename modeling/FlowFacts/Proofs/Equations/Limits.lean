import FlowFacts.Proofs.Equations.Termination

/-!
# Budgets and limits

A loop that ends by itself takes a number of steps for it that no budget changes (`Loop.Ends`). Any
budget of so many steps gives the same run, and any smaller one is used up. A step of rounds is a
pass and a step of the worklist is a visit, so a limit on passes decides whether there is a result,
and nothing else about it (`Equations.solve_eq_of_le`, `Equations.solve_of_eq_ok`).
-/

namespace FlowFacts

namespace Loop

variable {σ ε α : Type}

/-- The loop ends by itself after so many steps. A step that stops it counts as well. -/
inductive Ends (L : Loop σ ε α) : σ → Nat → σ × Except ε α → Prop
  | result {s a} : L.result? s = some a → Ends L s 0 (s, .ok a)
  | stop {s next cause} :
    L.result? s = none → L.step s = (next, some cause) → Ends L s 1 (next, .error cause)
  | step {s next steps ending} :
    L.result? s = none → L.step s = (next, none) → Ends L next steps ending →
      Ends L s (steps + 1) ending

/-- Each step that goes on puts the count up by one. -/
def Counts (L : Loop σ ε α) (count : σ → Nat) : Prop :=
  ∀ s next, L.result? s = none → L.step s = (next, none) → count next = count s + 1

variable {L : Loop σ ε α} {exhausted : ε} {budget steps : Nat} {s : σ} {ending : σ × Except ε α}
  {count : σ → Nat}

theorem Ends.run_eq (h : L.Ends s steps ending) (enough : steps ≤ budget) :
    L.run exhausted budget s = ending := by
  induction h generalizing budget with
  | result hresult => cases budget <;> rw [run, hresult]
  | stop hresult hstep =>
    cases budget with
    | zero => omega
    | succ budget => rw [run, hresult, hstep]
  | step hresult hstep _ ih =>
    cases budget with
    | zero => omega
    | succ budget =>
      rw [run, hresult, hstep]
      exact ih (Nat.le_of_succ_le_succ enough)

/-- A budget that is too small is used up. -/
theorem Ends.run_eq_exhausted (counts : L.Counts count) (h : L.Ends s steps ending)
    (short : budget < steps) :
    ∃ last, L.run exhausted budget s = (last, .error exhausted) ∧
      count last = count s + budget := by
  induction h generalizing budget with
  | result => omega
  | stop hresult =>
    obtain rfl : budget = 0 := by omega
    exact ⟨_, by rw [run, hresult], rfl⟩
  | @step s next steps ending hresult hstep _ ih =>
    cases budget with
    | zero => exact ⟨s, by rw [run, hresult], rfl⟩
    | succ budget =>
      obtain ⟨last, hrun, hcount⟩ := ih (Nat.lt_of_succ_lt_succ short)
      refine ⟨last, by rw [run, hresult, hstep]; exact hrun, ?_⟩
      have := counts s next hresult hstep
      omega

/-- A loop that ends with a result has come to a state that has it, and has counted its steps. -/
theorem Ends.result_eq (counts : L.Counts count) {last : σ} {a : α}
    (h : L.Ends s steps (last, .ok a)) :
    L.result? last = some a ∧ count last = count s + steps := by
  generalize hending : (last, Except.ok a) = ending at h
  induction h with
  | result hresult =>
    cases hending
    exact ⟨hresult, rfl⟩
  | stop => cases hending
  | step hresult hstep _ ih =>
    obtain ⟨hlast, hcount⟩ := ih hending
    have := counts _ _ hresult hstep
    exact ⟨hlast, by omega⟩

theorem ends_or_exhausted (L : Loop σ ε α) (exhausted : ε) (budget : Nat) (s : σ) :
    (∃ steps ≤ budget, L.Ends s steps (L.run exhausted budget s)) ∨
      (L.run exhausted budget s).2 = .error exhausted := by
  induction budget generalizing s with
  | zero =>
    unfold run
    split
    next hresult => exact .inl ⟨0, Nat.le_refl 0, .result hresult⟩
    next => exact .inr rfl
  | succ budget ih =>
    unfold run
    split
    next hresult => exact .inl ⟨0, Nat.zero_le _, .result hresult⟩
    next hresult =>
      split
      next hstep => exact .inl ⟨1, Nat.le_add_left 1 budget, .stop hresult hstep⟩
      next next hstep =>
        rcases ih next with ⟨steps, hle, ends⟩ | used
        · exact .inl ⟨steps + 1, Nat.succ_le_succ hle, .step hresult hstep ends⟩
        · exact .inr used

/-- A run that did not use up its budget is the same with any larger one. -/
theorem run_eq_of_le {budget' : Nat} (larger : budget ≤ budget') (exhausted' : ε)
    (h : (L.run exhausted budget s).2 ≠ .error exhausted) :
    L.run exhausted' budget' s = L.run exhausted budget s := by
  rcases L.ends_or_exhausted exhausted budget s with ⟨steps, hle, ends⟩ | used
  · exact ends.run_eq (hle.trans larger)
  · exact absurd used h

/-- What a run with a result took decides what any other budget leads to. -/
theorem run_of_eq_ok (counts : L.Counts count) (start : count s = 0) {last : σ} {a : α}
    (h : L.run exhausted budget s = (last, .ok a)) :
    L.result? last = some a ∧ count last ≤ budget ∧ ∀ exhausted' budget',
      (count last ≤ budget' → L.run exhausted' budget' s = (last, .ok a)) ∧
      (budget' < count last → ∃ early, L.run exhausted' budget' s = (early, .error exhausted') ∧
        count early = budget') := by
  rcases L.ends_or_exhausted exhausted budget s with ⟨steps, hle, ends⟩ | used
  · rw [h] at ends
    obtain ⟨hresult, hcount⟩ := ends.result_eq counts
    rw [start, Nat.zero_add] at hcount
    refine ⟨hresult, hcount.trans_le hle,
      fun exhausted' budget' => ⟨fun enough => ?_, fun short => ?_⟩⟩
    · exact ends.run_eq (hcount.ge.trans enough)
    · obtain ⟨early, hrun, hearly⟩ := ends.run_eq_exhausted counts (short.trans_eq hcount)
      exact ⟨early, hrun, by rw [hearly, start, Nat.zero_add]⟩
  · rw [h] at used
    cases used

end Loop

namespace Equations

variable {n : Nat} {F : Type} {E : Equations n F}

variable [LE F] [DecidableLE F] [DecidableEq F] {check : Bool} {limit : Nat}
  {limit? larger? : Option Nat} {order : List (Fin n)} {last : Progress n F} {tally : Tally}

/-! ### What a step counts -/

/-- A pass after which the rounds are over has reported no change, and is the last thing counted. -/
theorem head?_events_pass {s next : Rounds n F} (h : E.pass check order s = (next, none))
    (settled : next.settled = true) :
    next.progress.events.head? = some (.passed next.tally.passes .unchanged) := by
  obtain ⟨p, report, -, rfl⟩ := pass_eq_none h
  cases report with
  | changed => cases settled
  | unchanged => rfl

/-! ### Rounds -/

theorem passAllowance_some_steps (n limit : Nat) :
    (passAllowance n (some limit)).steps = min limit (countablePasses n) := by
  by_cases few : limit ≤ countablePasses n
  · rw [Nat.min_eq_left few, passAllowance, if_pos few]
  · rw [Nat.min_eq_right (Nat.le_of_not_le few), passAllowance, if_neg few]

/-- So many passes are allowed if they can be counted and the limit, if there is one, allows for
them. -/
theorem le_passAllowance_iff {passes : Nat} : passes ≤ (passAllowance n limit?).steps ↔
    passes ≤ countablePasses n ∧ ∀ limit, limit? = some limit → passes ≤ limit := by
  cases limit? with
  | none => simp [passAllowance]
  | some limit => simp [passAllowance_some_steps, and_comm]

theorem passAllowance_some_of_le (few : limit ≤ countablePasses n) :
    passAllowance n (some limit) = ⟨limit, .limitReached limit⟩ := if_pos few

theorem passAllowance_of_lt (many : ∀ limit, limit? = some limit → countablePasses n < limit) :
    passAllowance n limit? = ⟨countablePasses n, .countExhausted⟩ := by
  cases limit? with
  | none => rfl
  | some limit => exact if_neg (Nat.not_le_of_lt (many limit rfl))

/-- Rounds that a limit did not end are the same under any larger one. -/
theorem solveInRounds_eq_of_le (larger : ∀ limit', larger? = some limit' → limit ≤ limit')
    (h : (E.solveInRounds check (some limit) order).2 ≠ .error (.limitReached limit)) :
    E.solveInRounds check larger? order = E.solveInRounds check (some limit) order := by
  rw [solveInRounds_eq] at h
  rw [solveInRounds_eq, solveInRounds_eq]
  by_cases few : limit ≤ countablePasses n
  · rw [passAllowance_some_of_le few] at h ⊢
    exact congrArg _ (Loop.run_eq_of_le (le_passAllowance_iff.2 ⟨few, larger⟩) _ h)
  · have many := Nat.lt_of_not_le few
    rw [passAllowance_of_lt fun limit' hlimit' => many.trans_le (larger limit' hlimit'),
      passAllowance_of_lt fun limit' hlimit' => Option.some.inj hlimit' ▸ many]

theorem counts_roundLoop : (E.roundLoop check order).Counts fun s => s.progress.passes :=
  fun _ _ _ hstep => (counts_pass hstep).1

/-- The passes of rounds with a result are counted, and were allowed. -/
theorem counted_of_solveInRounds (h : E.solveInRounds check limit? order = (last, .ok tally)) :
    tally.passes = last.passes ∧ tally.passes ≤ (passAllowance n limit?).steps := by
  obtain ⟨s, hrun, rfl⟩ := run_of_solveInRounds h
  obtain ⟨hresult, hle, -⟩ := Loop.run_of_eq_ok counts_roundLoop rfl hrun
  obtain ⟨counted, -⟩ := Loop.run_eq_ok (I := fun s => s.tally.passes = s.progress.passes)
    (fun s next hs _ hstep => by rw [(counts_pass hstep).1, (counts_pass hstep).2, hs]) rfl hrun
  obtain ⟨-, rfl⟩ := result_roundLoop.1 hresult
  exact ⟨counted, counted.trans_le hle⟩

/-- The passes of rounds with a result are counted, down to the last one, which reports no change.
Any other limit allows for these or ends the rounds when they have made as many passes as it
says. -/
theorem solveInRounds_of_eq_ok (h : E.solveInRounds check limit? order = (last, .ok tally))
    (limit : Nat) :
    tally.passes = last.passes ∧
      last.events.head? = some (.passed tally.passes .unchanged) ∧
      (tally.passes ≤ limit → E.solveInRounds check (some limit) order = (last, .ok tally)) ∧
      (limit < tally.passes → ∃ early,
        E.solveInRounds check (some limit) order = (early, .error (.limitReached limit)) ∧
          early.passes = limit) := by
  obtain ⟨counted, few⟩ := counted_of_solveInRounds h
  obtain ⟨s, hrun, rfl⟩ := run_of_solveInRounds h
  rw [solveInRounds_eq]
  obtain ⟨hresult, -, other⟩ := Loop.run_of_eq_ok counts_roundLoop rfl hrun
  obtain ⟨confirmed, -⟩ := Loop.run_eq_ok (I := fun s : Rounds n F => s.settled = true →
      s.progress.events.head? = some (.passed s.tally.passes .unchanged))
    (fun s next _ _ hstep => head?_events_pass hstep) (fun settled => by cases settled) hrun
  obtain ⟨hsettled, rfl⟩ := result_roundLoop.1 hresult
  have countable : s.tally.passes ≤ countablePasses n := (le_passAllowance_iff.1 few).1
  refine ⟨counted, confirmed hsettled, fun enough => ?_, fun short => ?_⟩
  · have allowed : s.tally.passes ≤ (passAllowance n (some limit)).steps :=
      le_passAllowance_iff.2 ⟨countable, by simpa using enough⟩
    rw [(other _ _).1 (counted ▸ allowed)]
    rfl
  · rw [passAllowance_some_of_le (short.le.trans countable)]
    obtain ⟨early, hearly, hcount⟩ := (other (.limitReached limit) limit).2 (short.trans_eq counted)
    exact ⟨early.progress, by rw [hearly]; rfl, hcount⟩

/-! ### The worklist -/

theorem le_visitAllowance_iff {visits : Nat} : visits ≤ (visitAllowance n limit?).steps ↔
    visits ≤ maxCount ∧ ∀ limit, limit? = some limit → visits ≤ limit * n := by
  cases limit? with
  | none => simp [visitAllowance]
  | some limit => simp [visitAllowance, and_comm]

omit [LE F] [DecidableLE F] [DecidableEq F] in
/-- So many visits are worth no more passes than the limit if the limit allows for so many
visits. -/
theorem passes_le_iff {w : Worklist n F} (pos : 0 < n) :
    w.passes ≤ limit ↔ w.visits ≤ limit * n := by
  rw [Worklist.passes, Nat.div_le_iff_le_mul_add_pred pos, Nat.mul_comm]
  omega

theorem solveByWorklist_eq_of_le (larger : ∀ limit', larger? = some limit' → limit ≤ limit')
    (h : (E.solveByWorklist check (some limit) order).2 ≠ .error (.limitReached limit)) :
    E.solveByWorklist check larger? order = E.solveByWorklist check (some limit) order := by
  rw [solveByWorklist_eq] at h
  rw [solveByWorklist_eq, solveByWorklist_eq]
  obtain ⟨countable, allowed⟩ :=
    le_visitAllowance_iff.1 (Nat.le_refl (visitAllowance n (some limit)).steps)
  have allowed' :
      ∀ limit', larger? = some limit' → (visitAllowance n (some limit)).steps ≤ limit' * n :=
    fun limit' hlimit' => (allowed limit rfl).trans (Nat.mul_le_mul_right n (larger limit' hlimit'))
  exact congrArg _ (Loop.run_eq_of_le (le_visitAllowance_iff.2 ⟨countable, allowed'⟩) _ h)

/-- The visits of a worklist with a result are counted, and any other limit allows for these or ends
the work when there were as many visits as it is worth. -/
theorem solveByWorklist_of_eq_ok (h : E.solveByWorklist check limit? order = (last, .ok tally))
    (limit : Nat) :
    tally.visits = last.visits.length ∧ tally.passes = (tally.visits + (n - 1)) / n ∧
      (tally.passes ≤ limit → E.solveByWorklist check (some limit) order = (last, .ok tally)) ∧
      (limit < tally.passes → ∃ early,
        E.solveByWorklist check (some limit) order = (early, .error (.limitReached limit)) ∧
          early.visits.length = min (limit * n) maxCount) := by
  obtain ⟨w, hrun, rfl⟩ := run_of_solveByWorklist h
  rw [solveByWorklist_eq]
  have step : ∀ w next : Worklist n F, (E.visitLoop check).result? w = none →
      (E.visitLoop check).step w = (next, none) →
      next.progress.visits.length = w.progress.visits.length + 1 ∧ next.visits = w.visits + 1 := by
    intro w next hresult hstep
    exact counts_visitNext (waits_of_result hresult) hstep
  have counts : (E.visitLoop check).Counts fun w => w.progress.visits.length :=
    fun w next hw hstep => (step w next hw hstep).1
  obtain ⟨hresult, hle, other⟩ := Loop.run_of_eq_ok counts rfl hrun
  obtain ⟨counted, -⟩ := Loop.run_eq_ok (I := fun w => w.visits = w.progress.visits.length)
    (fun w next hw hresult hstep => by
      rw [(step w next hresult hstep).1, (step w next hresult hstep).2, hw]) rfl hrun
  obtain ⟨-, rfl⟩ := result_visitLoop.1 hresult
  have countable : w.progress.visits.length ≤ maxCount := (le_visitAllowance_iff.1 hle).1
  refine ⟨counted, rfl, fun enough => ?_, fun short => ?_⟩
  · rw [passes_le_iff E.boundary.pos, counted] at enough
    have allowed : w.progress.visits.length ≤ (visitAllowance n (some limit)).steps :=
      le_visitAllowance_iff.2 ⟨countable, by simpa using enough⟩
    rw [(other _ _).1 allowed]
    rfl
  · have few : limit * n < w.progress.visits.length := by
      rw [← counted]
      exact Nat.lt_of_not_le (mt (passes_le_iff E.boundary.pos).2 (Nat.not_le_of_lt short))
    have steps : (visitAllowance n (some limit)).steps < w.progress.visits.length :=
      (Nat.min_le_left _ _).trans_lt few
    obtain ⟨early, hearly, hcount⟩ := (other (visitAllowance n (some limit)).exhausted _).2 steps
    exact ⟨early.progress, by rw [hearly]; rfl, hcount⟩

/-! ### Both -/

/-- Work that a limit did not end is the same under any larger one. -/
theorem solve_eq_of_le {strategy : Strategy}
    (larger : ∀ limit', larger? = some limit' → limit ≤ limit')
    (h : (E.solve ⟨strategy, some limit, check⟩).2 ≠ .error (.limitReached limit)) :
    E.solve ⟨strategy, larger?, check⟩ = E.solve ⟨strategy, some limit, check⟩ := by
  unfold solve at h ⊢
  cases horder : E.order with
  | error e => rfl
  | ok order =>
    rw [horder] at h
    cases strategy with
    | roundRobin => exact solveInRounds_eq_of_le larger h
    | worklist => exact solveByWorklist_eq_of_le larger h

/-- What work with a result counted is what it did, and decides what becomes of it under any other
limit. -/
theorem solve_of_eq_ok {strategy : Strategy}
    (h : E.solve ⟨strategy, limit?, check⟩ = (last, .ok tally)) (limit : Nat) :
    (strategy = .roundRobin → tally.passes = last.passes ∧
        last.events.head? = some (.passed tally.passes .unchanged)) ∧
      (strategy = .worklist → tally.visits = last.visits.length ∧
        tally.passes = (tally.visits + (n - 1)) / n) ∧
      (tally.passes ≤ limit → E.solve ⟨strategy, some limit, check⟩ = (last, .ok tally)) ∧
      (limit < tally.passes → ∃ early,
        E.solve ⟨strategy, some limit, check⟩ = (early, .error (.limitReached limit)) ∧
          (strategy = .roundRobin → early.passes = limit) ∧
          (strategy = .worklist → early.visits.length = min (limit * n) maxCount)) := by
  obtain ⟨order, horder, ⟨rfl, rounds⟩ | ⟨rfl, worklist⟩⟩ := solve_eq_ok h
  · simp only [solve, horder]
    obtain ⟨counted, confirmed, enough, short⟩ := solveInRounds_of_eq_ok rounds limit
    refine ⟨fun _ => ⟨counted, confirmed⟩, nofun, enough, fun few => ?_⟩
    obtain ⟨early, hearly, hpasses⟩ := short few
    exact ⟨early, hearly, fun _ => hpasses, nofun⟩
  · simp only [solve, horder]
    obtain ⟨counted, worth, enough, short⟩ := solveByWorklist_of_eq_ok worklist limit
    refine ⟨nofun, fun _ => ⟨counted, worth⟩, enough, fun few => ?_⟩
    obtain ⟨early, hearly, hvisits⟩ := short few
    exact ⟨early, hearly, nofun, fun _ => hvisits⟩

end Equations

end FlowFacts

import FlowFacts.Proofs.Equations.Trail

/-!
# Checking the transfer functions while equations are solved

A check looks at a visit and does nothing else. Work that is checked does what it would do
unchecked, event by event, and ends there as well, unless some visit breaks the contract: then it
ends with the first visit that does (`Equations.Observes`). Both schedules are built from `advance`,
and each construction keeps this relation, so it holds of `solve` (`Equations.observes_solve`). The
check is also all that the order of the facts is for: work that is not checked is the same whatever
order they have (`Equations.solve_unchecked`).
-/

namespace FlowFacts.Equations

variable {n : Nat} {F : Type} [LE F]

/-- The transfer functions kept their contract so far. -/
def Clean (p : Progress n F) : Prop := ∀ v ∈ p.visits, v.Sound

variable [DecidableLE F] [DecidableEq F] {σ β : Type}

/-- The last visit is the first to break the contract, and the stop says how. -/
def Offended (p : Progress n F) (stop : Stop n) : Prop :=
  ∃ v earlier what, p.visits = v :: earlier ∧ (∀ u ∈ earlier, u.Sound) ∧
    v.misstep? = some what ∧ stop = .misstep v.node what

/-- Checked work on states that record their progress, beside the same work unchecked. -/
inductive Observes (progress : σ → Progress n F) (stopped : Stop n → β) (checked plain : σ × β) :
    Prop
  /-- There was nothing to see. -/
  | clean : checked = plain → Clean (progress plain.1) → Observes progress stopped checked plain
  /-- The checked work stopped on its way. -/
  | offended {stop} :
    checked.2 = stopped stop → Offended (progress checked.1) stop →
      (progress checked.1).events <:+ (progress plain.1).events →
      Observes progress stopped checked plain

variable {E : Equations n F} {check : Bool} {order : List (Fin n)} {p : Progress n F}

/-! ### Events are only added -/

theorem keeps_events (E : Equations n F) (check : Bool) (p : Progress n F) :
    E.Keeps check fun q => p.events <:+ q.events where
  advance q i h := by
    unfold advance
    split
    next => exact h
    next v _ => exact h.trans (List.suffix_cons (.visited v) q.events)
  record q e _ h := h.trans (List.suffix_cons e q.events)

/-! ### A visit -/

omit [DecidableLE F] [DecidableEq F] in
theorem Clean.record (clean : Clean p) {e : Event n F} (h : e.visit? = none) :
    Clean (p.record e) := by
  intro v hv
  rw [p.visits_record h] at hv
  exact clean v hv

theorem observes_advance (clean : Clean p) (i : Fin n) :
    Observes id .error (E.advance true p i) (E.advance false p i) := by
  unfold advance
  cases hvisit : E.visit p.store i with
  | error e => exact .clean rfl clean
  | ok v =>
    cases hmisstep : v.misstep? with
    | none =>
      refine .clean (by simp [hmisstep]) fun u hu => ?_
      rcases List.mem_cons.1 hu with rfl | hu
      · exact Visit.misstep?_eq_none_iff.1 hmisstep
      · exact clean u hu
    | some what =>
      have hnode : v.node = i := (visit_eq_ok_iff.1 hvisit).1
      refine .offended ?_ ⟨v, p.visits, what, rfl, clean, hmisstep, rfl⟩ List.suffix_rfl
      simp [hmisstep, hnode]

/-! ### Schedules -/

theorem observes_sweep (E : Equations n F) (order : List (Fin n)) (clean : Clean p)
    (report : Change) :
    Observes id .error (E.sweep true order p report) (E.sweep false order p report) := by
  induction order generalizing p report with
  | nil => exact .clean rfl clean
  | cons i rest ih =>
    unfold sweep
    cases observes_advance (E := E) clean i with
    | clean same hclean =>
      rw [same]
      rcases hplain : E.advance false p i with ⟨next, stop | v⟩
      · rw [hplain] at hclean
        exact .clean rfl hclean
      · rw [hplain] at hclean
        exact ih hclean _
    | @offended stop hstop hoffended suffix =>
      rcases hchecked : E.advance true p i with ⟨early, outcome⟩
      rw [hchecked] at hstop hoffended suffix
      obtain rfl : outcome = .error stop := hstop
      refine .offended rfl hoffended (suffix.trans ?_)
      rcases E.advance false p i with ⟨next, stop | v⟩
      · exact List.suffix_rfl
      · exact sweep_preserves (E.keeps_events false next).advance List.suffix_rfl

theorem observes_pass {s : Rounds n F} (clean : Clean s.progress) :
    Observes Rounds.progress some (E.pass true order s) (E.pass false order s) := by
  unfold pass
  cases E.observes_sweep order clean .unchanged with
  | clean same hclean =>
    rw [same]
    rcases hplain : E.sweep false order s.progress .unchanged with ⟨p, stop | report⟩
    · rw [hplain] at hclean
      exact .clean rfl hclean
    · rw [hplain] at hclean
      exact .clean rfl (hclean.record rfl)
  | @offended stop hstop hoffended suffix =>
    rcases hchecked : E.sweep true order s.progress .unchanged with ⟨early, outcome⟩
    rw [hchecked] at hstop hoffended suffix
    obtain rfl : outcome = .error stop := hstop
    refine .offended rfl hoffended (suffix.trans ?_)
    rcases E.sweep false order s.progress .unchanged with ⟨p, stop | report⟩
    · exact List.suffix_rfl
    · exact List.suffix_cons _ _

theorem observes_visitNext {w : Worklist n F} (clean : Clean w.progress) :
    Observes Worklist.progress some (E.visitNext true w) (E.visitNext false w) := by
  cases hqueue : w.queue with
  | nil =>
    rw [visitNext_nil hqueue, visitNext_nil hqueue]
    exact .clean rfl clean
  | cons i rest =>
    rw [visitNext_cons hqueue, visitNext_cons hqueue]
    cases observes_advance (E := E) clean i with
    | clean same hclean =>
      refine .clean (by rw [same]) ?_
      exact afterVisit_preserves (fun _ _ he clean => clean.record he) w i rest hclean
    | @offended stop hstop hoffended suffix =>
      rcases hchecked : E.advance true w.progress i with ⟨early, outcome⟩
      rw [hchecked] at hstop hoffended suffix
      obtain rfl : outcome = .error stop := hstop
      refine .offended rfl hoffended ?_
      exact afterVisit_preserves (E.keeps_events false early).record w i rest suffix

theorem observes_run {α : Type} (progress : σ → Progress n F) (checked plain : Loop σ (Stop n) α)
    (result : checked.result? = plain.result?)
    (step : ∀ s, Clean (progress s) → Observes progress some (checked.step s) (plain.step s))
    (adds : ∀ s, (progress s).events <:+ (progress (plain.step s).1).events)
    (exhausted : Stop n) (budget : Nat) {s : σ} (clean : Clean (progress s)) :
    Observes progress .error (checked.run exhausted budget s) (plain.run exhausted budget s) := by
  induction budget generalizing s with
  | zero =>
    refine .clean (by unfold Loop.run; rw [result]) ?_
    unfold Loop.run
    split <;> exact clean
  | succ budget ih =>
    unfold Loop.run
    rw [result]
    cases plain.result? s with
    | some a => exact .clean rfl clean
    | none =>
      cases step s clean with
      | clean same hclean =>
        rw [same]
        rcases hplain : plain.step s with ⟨next, _ | cause⟩
        · rw [hplain] at hclean
          exact ih hclean
        · rw [hplain] at hclean
          exact .clean rfl hclean
      | @offended stop hstop hoffended suffix =>
        rcases hchecked : checked.step s with ⟨early, cause⟩
        rw [hchecked] at hstop hoffended suffix
        obtain rfl : cause = some stop := hstop
        refine .offended rfl hoffended (suffix.trans ?_)
        rcases plain.step s with ⟨next, _ | cause⟩
        · exact Loop.run_preserves (I := fun t => (progress next).events <:+ (progress t).events)
            (fun t ht => ht.trans (adds t)) List.suffix_rfl
        · exact List.suffix_rfl

theorem Observes.map_progress {α : Type} {progress : σ → Progress n F}
    {checked plain : σ × Except (Stop n) α} (h : Observes progress .error checked plain) :
    Observes id .error (checked.map progress id) (plain.map progress id) := by
  cases h with
  | clean same hclean => exact .clean (congrArg _ same) hclean
  | offended hstop hoffended suffix => exact .offended hstop hoffended suffix

theorem observes_solve (E : Equations n F) (strategy : Strategy) (limit? : Option Nat) :
    Observes id .error (E.solve ⟨strategy, limit?, true⟩) (E.solve ⟨strategy, limit?, false⟩) := by
  have start : Clean E.start := fun v hv => absurd hv List.not_mem_nil
  unfold solve
  cases E.order with
  | error e => exact .clean rfl start
  | ok order =>
    cases strategy with
    | roundRobin =>
      dsimp only
      rw [solveInRounds_eq, solveInRounds_eq]
      apply Observes.map_progress
      exact observes_run Rounds.progress (E.roundLoop true order) (E.roundLoop false order) rfl
        (fun _ => observes_pass) (fun s => (E.keeps_events false s.progress).pass List.suffix_rfl)
        _ _ start
    | worklist =>
      dsimp only
      rw [solveByWorklist_eq, solveByWorklist_eq]
      apply Observes.map_progress
      exact observes_run Worklist.progress (E.visitLoop true) (E.visitLoop false) rfl
        (fun _ => observes_visitNext)
        (fun w => (E.keeps_events false w.progress).visitNext List.suffix_rfl) _ _ start

/-- Either every visit of the unchecked work keeps the contract, and the checked work is the same,
or the checked work ends with the first visit that does not. -/
theorem solve_checked_cases (E : Equations n F) (strategy : Strategy) (limit? : Option Nat) :
    let checked := E.solve ⟨strategy, limit?, true⟩
    let plain := E.solve ⟨strategy, limit?, false⟩
    checked = plain ∧ (∀ v ∈ plain.1.visits, v.Sound) ∨
      ∃ later v earlier what, plain.1.visits = later ++ v :: earlier ∧ (∀ u ∈ earlier, u.Sound) ∧
        v.misstep? = some what ∧ checked.2 = .error (.misstep v.node what) ∧
        checked.1.visits = v :: earlier ∧ checked.1.events <:+ plain.1.events := by
  intro checked plain
  cases E.observes_solve strategy limit? with
  | clean same hclean => exact .inl ⟨same, hclean⟩
  | offended hstop hoffended suffix =>
    obtain ⟨v, earlier, what, hvisits, sound, hwhat, rfl⟩ := hoffended
    obtain ⟨later, hlater⟩ : checked.1.visits <:+ plain.1.visits := suffix.filterMap _
    rw [show checked.1.visits = v :: earlier from hvisits] at hlater
    exact .inr ⟨later, v, earlier, what, hlater.symm, sound, hwhat, hstop, hvisits, suffix⟩

/-! ### Without the check -/

section

omit [LE F] [DecidableLE F]

variable (le le' : LE F) (decidable : @DecidableLE F le) (decidable' : @DecidableLE F le')

theorem sweep_unchecked (order : List (Fin n)) (p : Progress n F) (report : Change) :
    @sweep n F le decidable _ E false order p report =
      @sweep n F le' decidable' _ E false order p report := by
  induction order generalizing p report with
  | nil => rfl
  | cons i rest ih =>
    unfold sweep advance
    cases E.visit p.store i with
    | error e => rfl
    | ok v => exact ih _ _

/-- Only the check looks at the order of the facts. -/
theorem solve_unchecked (E : Equations n F) (strategy : Strategy) (limit? : Option Nat) :
    @solve n F le decidable _ E ⟨strategy, limit?, false⟩ =
      @solve n F le' decidable' _ E ⟨strategy, limit?, false⟩ := by
  have rounds : ∀ order, @roundLoop n F le decidable _ E false order =
      @roundLoop n F le' decidable' _ E false order := by
    intro order
    unfold roundLoop pass
    simp only [sweep_unchecked le le' decidable decidable']
  have visits : @visitLoop n F le decidable _ E false =
      @visitLoop n F le' decidable' _ E false := rfl
  unfold solve solveInRounds solveByWorklist
  simp only [rounds, visits]

end

end FlowFacts.Equations

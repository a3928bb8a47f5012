import FlowFacts.Proofs.Equations.Growth
import FlowFacts.Proofs.Equations.Observation

/-!
# What work on equations can stop with

A visit stops the work if its transfer function is checked and broke its contract, or if there is a
gap at its node; what comes after the visit can only come upon a gap (`Equations.Trips`). Beyond
that, the work as a whole stops when its allowance is used up, or at once where there is no order of
visits (`Equations.solve_eq_error`). Where transfer functions keep their contract, no visit stops
because of it, and so a check of them makes no difference at all (`Equations.Grows.solve_checked`).
-/

namespace FlowFacts

/-- A loop stops with what one of its steps stopped with, or because its budget was used up. -/
theorem Loop.run_eq_error {σ ε α : Type} {L : Loop σ ε α} {exhausted cause : ε} {P : ε → Prop}
    (step : ∀ s cause, (L.step s).2 = some cause → P cause) {budget : Nat} {s : σ}
    (h : (L.run exhausted budget s).2 = .error cause) : cause = exhausted ∨ P cause := by
  induction budget generalizing s with
  | zero =>
    unfold run at h
    split at h
    · cases h
    · exact .inl (Except.error.inj h).symm
  | succ budget ih =>
    unfold run at h
    split at h
    · cases h
    · split at h
      next hstep =>
        cases h
        exact .inr (step s cause (by rw [hstep]))
      next => exact ih h

namespace Equations

variable {n : Nat} {F : Type} [LE F] [DecidableLE F] [DecidableEq F] {E : Equations n F}
  {check : Bool} {stop : Stop n}

/-- What a visit or what comes after it can stop with, and where that comes from. -/
inductive Trips (E : Equations n F) (check : Bool) : Stop n → Prop
  | misstep {store i v what} : check = true → E.visit store i = .ok v → v.misstep? = some what →
    Trips E check (.misstep i what)
  | sources {i e} : E.sources i = .error e → Trips E check (.gap e)
  | dependents {i e} : E.dependents i = .error e → Trips E check (.gap e)

omit [LE F] [DecidableLE F] [DecidableEq F] in
theorem sources_of_visit_eq_error {store : Store n F} {i : Fin n} {e : LookupError}
    (h : E.visit store i = .error e) : E.sources i = .error e := by
  unfold visit gather at h
  split at h
  · cases h
  · cases hs : E.sources i with
    | error e' =>
      rw [hs] at h
      cases h
      rfl
    | ok sources =>
      rw [hs] at h
      cases h

theorem trips_of_advance {p : Progress n F} {i : Fin n}
    (h : (E.advance check p i).2 = .error stop) : E.Trips check stop := by
  unfold advance at h
  split at h
  next hv =>
    cases h
    exact .sources (sources_of_visit_eq_error hv)
  next v hv =>
    split at h
    next what hwhat =>
      cases h
      split at hwhat
      next hcheck => exact .misstep hcheck hv hwhat
      next => cases hwhat
    next => cases h

theorem trips_of_sweep {order : List (Fin n)} {p : Progress n F} {report : Change}
    (h : (E.sweep check order p report).2 = .error stop) : E.Trips check stop := by
  induction order generalizing p report with
  | nil => cases h
  | cons i rest ih =>
    unfold sweep at h
    split at h
    next hadvance =>
      cases h
      exact trips_of_advance (by rw [hadvance])
    next => exact ih h

theorem trips_of_pass {order : List (Fin n)} {s : Rounds n F}
    (h : (E.pass check order s).2 = some stop) : E.Trips check stop := by
  unfold pass at h
  split at h
  next hsweep =>
    cases h
    exact trips_of_sweep (by rw [hsweep])
  next => cases h

theorem trips_of_visitNext {w : Worklist n F} (h : (E.visitNext check w).2 = some stop) :
    E.Trips check stop := by
  cases hqueue : w.queue with
  | nil =>
    rw [visitNext_nil hqueue] at h
    cases h
  | cons i rest =>
    rw [visitNext_cons hqueue] at h
    rcases hadvance : E.advance check w.progress i with ⟨next, stop' | v⟩
    · rw [hadvance] at h
      cases h
      exact trips_of_advance (by rw [hadvance])
    · rw [hadvance, afterVisit] at h
      split at h
      · split at h
        next => cases h
        next hd =>
          cases h
          exact .dependents hd
      · cases h

/-- Work on the equations stops where a visit trips, or when it has come to the end of what it is
allowed, or because there is no order of visits. -/
theorem solve_eq_error {settings : Settings} (h : (E.solve settings).2 = .error stop) :
    E.Trips settings.checkTransfer stop ∨
      (∃ limit, settings.maxPasses = some limit ∧ stop = .limitReached limit) ∨
      stop = .countExhausted ∨ ∃ e, E.order = .error e ∧ stop = .gap e := by
  unfold solve at h
  split at h
  next e horder =>
    cases h
    exact .inr (.inr (.inr ⟨e, horder, rfl⟩))
  next order _ =>
    split at h
    · rw [solveInRounds_eq] at h
      rcases Loop.run_eq_error (L := E.roundLoop settings.checkTransfer order)
        (fun _ _ => trips_of_pass) h with rfl | trips
      · rcases passAllowance_cases n settings.maxPasses with
          ⟨limit, hlimit, hallowance⟩ | hallowance
        · exact .inr (.inl ⟨limit, hlimit, by rw [hallowance]⟩)
        · exact .inr (.inr (.inl (by rw [hallowance])))
      · exact .inl trips
    · rw [solveByWorklist_eq] at h
      rcases Loop.run_eq_error (L := E.visitLoop settings.checkTransfer)
        (fun _ _ => trips_of_visitNext) h with rfl | trips
      · rcases visitAllowance_cases n settings.maxPasses with
          ⟨limit, hlimit, hallowance⟩ | hallowance
        · exact .inr (.inl ⟨limit, hlimit, by rw [hallowance]⟩)
        · exact .inr (.inr (.inl (by rw [hallowance])))
      · exact .inl trips

/-- Only a check of given facts finds them unstable. -/
theorem solve_ne_unstable {settings : Settings} (i : Fin n) (role : Role) :
    (E.solve settings).2 ≠ .error (.unstable i role) := by
  intro h
  rcases solve_eq_error h with trips | ⟨_, -, h⟩ | h | ⟨_, -, h⟩
  · cases trips
  · cases h
  · cases h
  · cases h

theorem Grows.solve_ne_misstep (grows : E.Grows) {settings : Settings} (i : Fin n)
    (what : Misstep) : (E.solve settings).2 ≠ .error (.misstep i what) := by
  intro h
  rcases solve_eq_error h with trips | ⟨_, -, h⟩ | h | ⟨_, -, h⟩
  · cases trips with
    | misstep _ hv hwhat => cases (grows.misstep?_eq_none hv).symm.trans hwhat
  · cases h
  · cases h
  · cases h

/-- Transfer functions that keep their contract may as well be checked. -/
theorem Grows.solve_checked (grows : E.Grows) (strategy : Strategy) (limit? : Option Nat) :
    E.solve ⟨strategy, limit?, true⟩ = E.solve ⟨strategy, limit?, false⟩ := by
  obtain ⟨same, -⟩ | ⟨_, v, _, what, -, -, -, hstop, -⟩ := E.solve_checked_cases strategy limit?
  · exact same
  · exact absurd hstop (grows.solve_ne_misstep v.node what)

end Equations

end FlowFacts

import Mathlib.Algebra.Order.Floor.Div
import FlowFacts.Proofs.Dataflow.Termination
import FlowFacts.Proofs.Equations.Limits
import FlowFacts.Proofs.Equations.Stops

/-!
# What the settings of a solver decide

A limit on passes and the check of the transfer functions decide whether a run is let go on. They
never decide where it goes. A limit that is not reached leaves no mark on the run
(`Analysis.run_under_limit`), and a run that is checked is the unchecked one up to the first visit
that breaks the contract (`Analysis.run_checked`). Where transfer functions keep the contract, it is
the same altogether (`Analysis.Grows.solve_checked`).
-/

namespace FlowFacts

theorem Visit.describe_report_ne {n : Nat} {F : Type} [DecidableEq F] {v : Visit n F}
    (h : v.actual ≠ v.report) : v.report.describe ≠ v.actual.describe := by
  intro same
  cases hactual : v.actual <;> cases hreport : v.report <;> simp_all [Change.describe]

theorem Graph.entries_prefix {ν F : Type} {g : Graph ν} {d : Direction} {p q : Progress g.size F}
    (h : p.events <:+ q.events) : (g.entries d p : List (Entry ν F)) <+: g.entries d q := by
  apply List.IsPrefix.map
  exact List.reverse_prefix.2 h

namespace Analysis

variable {ν F : Type} [DecidableEq ν] [LE F] [DecidableLE F] [DecidableEq F] {a : Analysis ν F}
  {g : Graph ν} {boundary : Fin g.size} {settings settings' : Settings}

/-! ### Runs and the work on their equations -/

/-- Of the settings, a run depends on the strategy and on what they let the equations come to. -/
theorem solve_congr (strategy : settings.strategy = settings'.strategy)
    (h : ∀ boundary, g.boundary a.direction = .ok boundary →
      (a.equations g boundary).solve settings = (a.equations g boundary).solve settings') :
    a.solve settings g = a.solve settings' g := by
  unfold solve equations?
  cases hb : g.boundary a.direction with
  | error cause => simp only [Except.map, strategy]
  | ok boundary => simp only [Except.map, strategy, h boundary hb]

/-- The journal says that the run began, then what happened, and last that there is a result. -/
theorem journal_solve (hb : g.boundary a.direction = .ok boundary) (settings : Settings) :
    (a.solve settings g).journal =
      (.running g.size settings.strategy :: .seeded g.size (g.node boundary) ::
        g.entries a.direction ((a.equations g boundary).solve settings).1) ++
      match ((a.equations g boundary).solve settings).2 with
      | .ok tally => [.converged tally]
      | .error _ => [] := by
  simp only [solve, equations?, hb, Except.map]
  cases ((a.equations g boundary).solve settings).2 <;> simp [equations]

theorem outcome_eq_error (hb : g.boundary a.direction = .ok boundary) {stop : Stop g.size}
    (h : ((a.equations g boundary).solve settings).2 = .error stop) :
    (a.solve settings g).outcome = .error (a.failure (g.causeOf a.direction stop)) := by
  rw [outcome_solve hb]
  rcases hsolve : (a.equations g boundary).solve settings with ⟨last, outcome⟩
  rw [hsolve] at h
  obtain rfl : outcome = .error stop := h
  rfl

/-! ### The limit on passes -/

/-- The work that a result says it took is the work of its run. In rounds the last pass counts as
well, which confirms the result; with the worklist the passes are what the visits are worth, rounded
up. -/
structure Counted (g : Graph ν) (strategy : Strategy) (r : Run ν F (Solution ν F))
    (s : Solution ν F) : Prop where
  rounds : strategy = .roundRobin → s.stats.passes = r.passes ∧
    ∃ earlier, r.journal =
      earlier ++ [.passed s.stats.passes .unchanged, .converged s.stats.toTally]
  worklist : strategy = .worklist → s.stats.visits = r.visits ∧
    s.stats.passes = s.stats.visits ⌈/⌉ g.size

/-- The limit was reached after all the work that it is worth. -/
structure Stopped (a : Analysis ν F) (g : Graph ν) (strategy : Strategy) (limit : Nat)
    (r : Run ν F (Solution ν F)) : Prop where
  outcome : r.outcome = .error (a.failure (.limitReached limit))
  rounds : strategy = .roundRobin → r.passes = limit
  worklist : strategy = .worklist → r.visits = min (limit * g.size) maxCount

variable {strategy : Strategy} {check : Bool} {limit : Nat} {limit? : Option Nat} {s : Solution ν F}

theorem counted_of_solve (h : (a.solve ⟨strategy, limit?, check⟩ g).outcome = .ok s) :
    Counted g strategy (a.solve ⟨strategy, limit?, check⟩ g) s := by
  obtain ⟨boundary, last, tally, hb, hsolve, rfl⟩ := solve_eq_ok h
  obtain ⟨rounds, worklist, -⟩ := Equations.solve_of_eq_ok hsolve tally.passes
  constructor
  · intro hstrategy
    obtain ⟨counted, confirmed⟩ := rounds hstrategy
    obtain ⟨events, hevents⟩ := List.head?_eq_some_iff.1 confirmed
    refine ⟨by rw [passes_solve hb, hsolve]; exact counted, ?_⟩
    rw [journal_solve hb, hsolve, Graph.entries, hevents, List.reverse_cons, List.map_append]
    exact ⟨.running g.size strategy :: .seeded g.size (g.node boundary) ::
      events.reverse.map (g.entryOf a.direction), by simp [Graph.entryOf]⟩
  · intro hstrategy
    obtain ⟨counted, worth⟩ := worklist hstrategy
    refine ⟨by rw [visits_solve hb, hsolve]; exact counted, worth.trans ?_⟩
    rw [Nat.ceilDiv_eq_add_pred_div, Nat.add_sub_assoc boundary.pos]

/-- A limit that allows for the passes of a result leaves the run as it is. -/
theorem solve_eq_of_passes_le (h : (a.solve ⟨strategy, limit?, check⟩ g).outcome = .ok s)
    (few : s.stats.passes ≤ limit) :
    a.solve ⟨strategy, some limit, check⟩ g = a.solve ⟨strategy, limit?, check⟩ g := by
  obtain ⟨boundary, last, tally, hb, hsolve, rfl⟩ := solve_eq_ok h
  refine solve_congr rfl fun boundary' hb' => ?_
  cases hb.symm.trans hb'
  rw [(Equations.solve_of_eq_ok hsolve limit).2.2.1 few, hsolve]

theorem stopped_of_lt_passes (h : (a.solve ⟨strategy, limit?, check⟩ g).outcome = .ok s)
    (many : limit < s.stats.passes) :
    Stopped a g strategy limit (a.solve ⟨strategy, some limit, check⟩ g) := by
  obtain ⟨boundary, last, tally, hb, hsolve, rfl⟩ := solve_eq_ok h
  obtain ⟨early, hearly, passes, visits⟩ := (Equations.solve_of_eq_ok hsolve limit).2.2.2 many
  refine ⟨?_, fun hstrategy => ?_, fun hstrategy => ?_⟩
  · exact outcome_eq_error hb (by rw [hearly])
  · rw [passes_solve hb, hearly]
    exact passes hstrategy
  · rw [visits_solve hb, hearly]
    exact visits hstrategy

/-- A limit that a run keeps to is invisible, as is any larger one. A run with a result keeps to the
limits that allow for the passes it took, and to no others. -/
theorem run_under_limit (a : Analysis ν F) (g : Graph ν) (strategy : Strategy) (check : Bool)
    (limit : Nat) :
    ((a.solve ⟨strategy, some limit, check⟩ g).outcome ≠
        .error (a.failure (.limitReached limit)) →
      ∀ larger?, (∀ limit', larger? = some limit' → limit ≤ limit') →
        a.solve ⟨strategy, larger?, check⟩ g = a.solve ⟨strategy, some limit, check⟩ g) ∧
    ∀ limit? s, (a.solve ⟨strategy, limit?, check⟩ g).outcome = .ok s →
      Counted g strategy (a.solve ⟨strategy, limit?, check⟩ g) s ∧
      (s.stats.passes ≤ limit →
        a.solve ⟨strategy, some limit, check⟩ g = a.solve ⟨strategy, limit?, check⟩ g) ∧
      (limit < s.stats.passes →
        Stopped a g strategy limit (a.solve ⟨strategy, some limit, check⟩ g)) := by
  constructor
  · intro kept larger? larger
    refine solve_congr rfl fun boundary hb => Equations.solve_eq_of_le larger fun reached => kept ?_
    exact outcome_eq_error hb reached
  · intro limit? s h
    exact ⟨counted_of_solve h, solve_eq_of_passes_le h, stopped_of_lt_passes h⟩

theorem run_under_limit_spinning :
    ∃ s t, (passedNodes.solve ⟨.roundRobin, none, true⟩ spinning).outcome = .ok s ∧
      (passedNodes.solve ⟨.worklist, none, true⟩ spinning).outcome = .ok t ∧
      Counted spinning .roundRobin (passedNodes.solve ⟨.roundRobin, none, true⟩ spinning) s ∧
      Counted spinning .worklist (passedNodes.solve ⟨.worklist, none, true⟩ spinning) t ∧
      passedNodes.solve ⟨.roundRobin, some 3, true⟩ spinning =
        passedNodes.solve ⟨.roundRobin, none, true⟩ spinning ∧
      Stopped passedNodes spinning .worklist 1
        (passedNodes.solve ⟨.worklist, some 1, true⟩ spinning) := by
  obtain ⟨s, hs, few⟩ :
      ∃ s, (passedNodes.solve ⟨.roundRobin, none, true⟩ spinning).outcome = .ok s ∧
        s.stats.passes ≤ 3 := by decide +kernel
  obtain ⟨t, ht, many⟩ : ∃ t, (passedNodes.solve ⟨.worklist, none, true⟩ spinning).outcome = .ok t ∧
      1 < t.stats.passes := by decide +kernel
  obtain ⟨countedS, same, -⟩ :=
    (run_under_limit passedNodes spinning .roundRobin true 3).2 none s hs
  obtain ⟨countedT, -, stopped⟩ :=
    (run_under_limit passedNodes spinning .worklist true 1).2 none t ht
  exact ⟨s, t, hs, ht, countedS, countedT, same few, stopped many⟩

/-! ### The check of the transfer functions -/

theorem journal_prefix (hb : g.boundary a.direction = .ok boundary) {stop : Stop g.size}
    (same : settings.strategy = settings'.strategy)
    (hstop : ((a.equations g boundary).solve settings).2 = .error stop)
    (suffix : ((a.equations g boundary).solve settings).1.events <:+
      ((a.equations g boundary).solve settings').1.events) :
    (a.solve settings g).journal <+: (a.solve settings' g).journal := by
  rw [journal_solve hb, journal_solve hb, hstop, List.append_nil, same]
  refine List.IsPrefix.trans ?_ (List.prefix_append _ _)
  rw [List.cons_prefix_cons, List.cons_prefix_cons]
  exact ⟨rfl, rfl, Graph.entries_prefix suffix⟩

theorem Grows.solve_checked (grows : a.Grows g) (strategy : Strategy) (limit? : Option Nat) :
    a.solve ⟨strategy, limit?, true⟩ g = a.solve ⟨strategy, limit?, false⟩ g :=
  solve_congr rfl fun _ _ => grows.equations.solve_checked strategy limit?

/-- Where transfer functions keep the contract, the check may be turned on or off. -/
theorem Grows.solve_set_check (grows : a.Grows g) (settings : Settings) (check : Bool) :
    a.solve { settings with checkTransfer := check } g = a.solve settings g := by
  obtain ⟨strategy, limit?, check'⟩ := settings
  have checked : ∀ check, a.solve ⟨strategy, limit?, check⟩ g = a.solve ⟨strategy, limit?, true⟩ g
    | true => rfl
    | false => (grows.solve_checked strategy limit?).symm
  exact (checked check).trans (checked check').symm

omit [LE F] [DecidableLE F] in
/-- A run that is not checked is the same whatever order the facts have. -/
theorem solve_unchecked (a : Analysis ν F) (g : Graph ν) (le le' : LE F)
    (decidable : @DecidableLE F le) (decidable' : @DecidableLE F le') (strategy : Strategy)
    (limit? : Option Nat) :
    @solve ν F _ le decidable _ a ⟨strategy, limit?, false⟩ g =
      @solve ν F _ le' decidable' _ a ⟨strategy, limit?, false⟩ g := by
  unfold solve
  simp only [Equations.solve_unchecked le le' decidable decidable']

/-- Either every visit of the unchecked run keeps the contract, and the checked run is the same, or
the checked run fails at the first visit that does not. -/
theorem solve_checked_cases (hb : g.boundary a.direction = .ok boundary) (strategy : Strategy)
    (limit? : Option Nat) :
    let checked := a.solve ⟨strategy, limit?, true⟩ g
    let unchecked := a.solve ⟨strategy, limit?, false⟩ g
    let visits := ((a.equations g boundary).solve ⟨strategy, limit?, false⟩).1.visits.reverse
    checked = unchecked ∧ (∀ v ∈ visits, v.Sound) ∨
      ∃ earlier v later what, visits = earlier ++ v :: later ∧ (∀ u ∈ earlier, u.Sound) ∧
        v.misstep? = some what ∧
        checked.outcome = .error (a.failure (g.causeOf a.direction (.misstep v.node what))) ∧
        checked.journal <+: unchecked.journal ∧ checked.visits = earlier.length + 1 := by
  intro checked unchecked visits
  obtain ⟨same, sound⟩ |
      ⟨later, v, earlier, what, decomposed, sound, hwhat, hstop, hvisits, suffix⟩ :=
    (a.equations g boundary).solve_checked_cases strategy limit?
  · refine .inl ⟨solve_congr rfl fun boundary' hb' => ?_, by simpa [visits] using sound⟩
    cases hb.symm.trans hb'
    exact same
  · refine .inr ⟨earlier.reverse, v, later.reverse, what, by simp [visits, decomposed],
      by simpa using sound, hwhat, outcome_eq_error hb hstop,
      journal_prefix hb rfl hstop suffix, ?_⟩
    rw [visits_solve hb, hvisits, List.length_reverse, List.length_cons]

/-- A result that stands up to the check is there without it. -/
theorem outcome_unchecked (h : (a.solve ⟨strategy, limit?, check⟩ g).outcome = .ok s) :
    (a.solve ⟨strategy, limit?, false⟩ g).outcome = .ok s := by
  cases check with
  | false => exact h
  | true =>
    obtain ⟨boundary, last, tally, hb, -, -⟩ := solve_eq_ok h
    obtain ⟨same, -⟩ | ⟨_, _, _, _, -, -, -, outcome, -⟩ := solve_checked_cases hb strategy limit?
    · rwa [← same]
    · cases h.symm.trans outcome

/-- A check only watches. If every visit of the unchecked run keeps the contract, the checked run is
the same. Otherwise it is the same up to the first visit that does not, and fails there: if the
order was violated for this, and else because the report differs from what happened. -/
theorem run_checked (hb : g.boundary a.direction = .ok boundary) (strategy : Strategy)
    (limit? : Option Nat) :
    let checked := a.solve ⟨strategy, limit?, true⟩ g
    let unchecked := a.solve ⟨strategy, limit?, false⟩ g
    let visits := ((a.equations g boundary).solve ⟨strategy, limit?, false⟩).1.visits.reverse
    ((∀ v ∈ visits, v.Sound) → checked = unchecked) ∧
      ((∃ v ∈ visits, ¬ v.Sound) →
        ∃ earlier v later, visits = earlier ++ v :: later ∧ (∀ u ∈ earlier, u.Sound) ∧ ¬ v.Sound ∧
          checked.journal <+: unchecked.journal ∧ checked.visits = earlier.length + 1 ∧
          (¬ v.found.output ≤ v.left.output →
            checked.outcome = .error (a.failure (.notMonotone (g.node v.node)))) ∧
          (v.found.output ≤ v.left.output →
            checked.outcome =
              .error (a.failure (.inexactReport (g.node v.node) v.report v.actual)) ∧
            v.report.describe ≠ v.actual.describe ∧
            (v.actual = .changed ↔ v.left.output ≠ v.found.output))) := by
  intro checked unchecked visits
  obtain ⟨same, sound⟩ |
      ⟨earlier, v, later, what, decomposed, sound, hwhat, outcome, journal, count⟩ :=
    solve_checked_cases hb strategy limit?
  · exact ⟨fun _ => same, fun ⟨v, hv, broken⟩ => absurd (sound v hv) broken⟩
  · have broken : ¬ v.Sound := by
      rw [← Visit.misstep?_eq_none_iff, hwhat]
      exact Option.some_ne_none what
    have hmem : v ∈ visits := by
      rw [show visits = earlier ++ v :: later from decomposed]
      exact List.mem_append_right _ List.mem_cons_self
    refine ⟨fun all => absurd (all v hmem) broken, fun _ => ⟨earlier, v, later, decomposed, sound,
      broken, journal, count, fun shrank => ?_, fun kept => ?_⟩⟩
    · obtain ⟨-, rfl⟩ | ⟨kept, -⟩ := Visit.misstep?_eq_some_iff.1 hwhat
      · exact outcome
      · exact absurd kept shrank
    · obtain ⟨shrank, -⟩ | ⟨-, differs, rfl⟩ := Visit.misstep?_eq_some_iff.1 hwhat
      · exact absurd kept shrank
      · exact ⟨outcome, Visit.describe_report_ne differs, Visit.actual_eq_changed_iff⟩

/-- Passed nodes, but node 1 never reports a change. -/
def sloppy : Analysis Nat Nat :=
  { passedNodes with
    name := "sloppy"
    transfer := fun v facts =>
      let (facts, report) := passedNodes.transfer v facts
      (facts, if v = 1 then .unchanged else report) }

theorem run_checked_sloppy :
    let visits := ((sloppy.equations spinning ⟨0, by decide⟩).solve
      ⟨.worklist, some 4, false⟩).1.visits.reverse
    (∃ v ∈ visits, ¬ v.Sound) ∧
      ∃ earlier v later, visits = earlier ++ v :: later ∧ (∀ u ∈ earlier, u.Sound) ∧ ¬ v.Sound ∧
        (sloppy.solve ⟨.worklist, some 4, true⟩ spinning).visits = earlier.length + 1 ∧
        ∃ cause, (sloppy.solve ⟨.worklist, some 4, true⟩ spinning).outcome =
            .error (sloppy.failure cause) ∧
          (cause = .notMonotone (spinning.node v.node) ∨
            cause = .inexactReport (spinning.node v.node) v.report v.actual) := by
  intro visits
  have broken : ∃ v ∈ visits, ¬ v.Sound := by
    simp only [← Visit.misstep?_eq_none_iff]
    decide +kernel
  obtain ⟨earlier, v, later, decomposed, sound, unsound, -, count, shrank, kept⟩ :=
    (run_checked (a := sloppy) (g := spinning) (by decide +kernel) .worklist (some 4)).2 broken
  refine ⟨broken, earlier, v, later, decomposed, sound, unsound, count, ?_⟩
  by_cases order : v.found.output ≤ v.left.output
  · exact ⟨_, (kept order).1, .inr rfl⟩
  · exact ⟨_, shrank order, .inl rfl⟩

end Analysis

end FlowFacts

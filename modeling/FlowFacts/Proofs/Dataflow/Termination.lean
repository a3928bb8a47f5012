import Mathlib.Data.Finset.Prod
import FlowFacts.Proofs.Dataflow.LeastSolution
import FlowFacts.Proofs.Dataflow.VisitOrder
import FlowFacts.Proofs.Equations.Termination

/-!
# How long a run takes

Where transfer functions take nothing away and report exactly what they changed (`Analysis.Grows`),
and facts have bounded height, a run over a well-formed graph is over after a number of passes that
the nodes bound, or a number of visits that the nodes and the edges bound (`Graph.edges`). A limit
that allows for so many passes is never reached.
-/

namespace FlowFacts

/-- The edges between the nodes of a graph. Parallel edges count as one. -/
def Graph.edges {ν : Type} [DecidableEq ν] (g : Graph ν) : Finset (ν × ν) :=
  {e ∈ g.nodes.toFinset ×ˢ g.nodes.toFinset | g.Edge e.1 e.2}

/-! ### What a journal counts -/

namespace Entry

variable {ν F : Type}

def isPassed : Entry ν F → Bool
  | passed .. => true
  | _ => false

def isVisited : Entry ν F → Bool
  | visited .. => true
  | _ => false

end Entry

namespace Run

variable {ν F α : Type}

/-- The number of passes that were completed in a run. -/
def passes (r : Run ν F α) : Nat := r.journal.countP Entry.isPassed

/-- The number of visits that were made in a run. -/
def visits (r : Run ν F α) : Nat := r.journal.countP Entry.isVisited

end Run

namespace Graph

variable {ν F : Type} {g : Graph ν}

theorem countP_isPassed_entries (d : Direction) (p : Progress g.size F) :
    (g.entries d p).countP Entry.isPassed = p.passes := by
  rw [entries, List.countP_map, List.countP_reverse, Progress.passes]
  congr 1
  funext e
  cases e <;> rfl

theorem countP_isVisited_entries (d : Direction) (p : Progress g.size F) :
    (g.entries d p).countP Entry.isVisited = p.visits.length := by
  rw [entries, List.countP_map, List.countP_reverse, Progress.visits,
    List.length_filterMap_eq_countP]
  congr 1
  funext e
  cases e <;> rfl

end Graph

namespace Analysis

variable {ν F : Type} [DecidableEq ν] {a : Analysis ν F} {g : Graph ν} {boundary : Fin g.size}

/-- At the nodes of the graph, the transfer function takes nothing away from the output side, and
reports exactly whether it changed it. -/
structure Grows [LE F] (a : Analysis ν F) (g : Graph ν) : Prop where
  output_le : ∀ v ∈ g.nodes, ∀ sides, sides.output ≤ (a.transferSides v sides).1.output
  report_iff : ∀ v ∈ g.nodes, ∀ sides, (a.transferSides v sides).2 = .changed ↔
    (a.transferSides v sides).1.output ≠ sides.output

omit [DecidableEq ν] in
theorem Accumulates.grows [SemilatticeSup F] {f : ν → F → F} (acc : a.Accumulates g f) :
    a.Grows g where
  output_le v hv sides := by
    rw [acc.transfer_eq v hv]
    exact le_sup_left
  report_iff := acc.report_iff

theorem Grows.equations [LE F] (grows : a.Grows g) : (a.equations g boundary).Grows where
  output_le i := grows.output_le _ (Graph.node_mem i)
  report_iff i := grows.report_iff _ (Graph.node_mem i)

theorem exists_dependents (a : Analysis ν F) (boundary : Fin g.size) (wf : g.WellFormed)
    (i : Fin g.size) :
    ∃ dependents, (a.equations g boundary).dependents i = .ok dependents ∧
      (a.direction.flow g).children (g.node i) = .ok (dependents.map g.node) := by
  obtain ⟨ws, hws, hmem⟩ := (wf.flow a.direction).children (g.node i) (by simp [Graph.node_mem])
  obtain ⟨dependents, rfl⟩ := Graph.exists_numbers (g := g) fun w hw => by simpa using hmem w hw
  exact ⟨dependents, by rw [dependents_equations, Graph.numbered_eq_ok_iff wf.nodup, hws], hws⟩

theorem complete_equations (wf : g.WellFormed) : (a.equations g boundary).Complete where
  sources i := (exists_sources a boundary wf i).imp fun _ => And.left
  dependents i := (exists_dependents a boundary wf i).imp fun _ => And.left

theorem fanOut_equations (wf : g.WellFormed) (i : Fin g.size) :
    (a.equations g boundary).fanOut i =
      ({j | (a.direction.flow g).Edge (g.node i) (g.node j)} : Finset (Fin g.size)).card := by
  obtain ⟨dependents, hd, hchildren⟩ := exists_dependents a boundary wf i
  rw [Equations.fanOut, hd]
  change dependents.toFinset.card = _
  congr 1
  ext j
  rw [List.mem_toFinset, Finset.mem_filter, Graph.edge_iff hchildren,
    List.mem_map_of_injective (Graph.node_injective wf.nodup)]
  simp

theorem sum_fanOut_le (wf : g.WellFormed) :
    ∑ i, (a.equations g boundary).fanOut i ≤ (a.direction.flow g).edges.card := by
  have apart : Function.Injective fun p : (_ : Fin g.size) × Fin g.size =>
      (g.node p.1, g.node p.2) := by
    rintro ⟨i, j⟩ ⟨i', j'⟩ h
    obtain ⟨hi, hj⟩ := Prod.mk.inj h
    obtain rfl : i = i' := Graph.node_injective wf.nodup hi
    obtain rfl : j = j' := Graph.node_injective wf.nodup hj
    rfl
  simp only [fanOut_equations wf]
  -- Each edge is counted where it starts, once.
  rw [← Finset.card_sigma]
  refine Finset.card_le_card_of_injOn _ (fun p hp => ?_) apart.injOn
  have hedge := (Finset.mem_filter.1 (Finset.mem_sigma.1 hp).2).2
  simp only [Graph.edges, Finset.coe_filter, Set.mem_ofPred_eq, Finset.mem_product,
    List.mem_toFinset, Graph.nodes_flow]
  exact ⟨⟨Graph.node_mem _, Graph.node_mem _⟩, hedge⟩

variable [LE F] [DecidableLE F] [DecidableEq F]

/-! ### Runs -/

theorem passes_solve (hb : g.boundary a.direction = .ok boundary) (settings : Settings) :
    (a.solve settings g).passes = ((a.equations g boundary).solve settings).1.passes := by
  rw [← Graph.countP_isPassed_entries a.direction]
  simp only [Run.passes, solve, equations?, hb, Except.map]
  cases ((a.equations g boundary).solve settings).2 <;> simp [Entry.isPassed]

theorem visits_solve (hb : g.boundary a.direction = .ok boundary) (settings : Settings) :
    (a.solve settings g).visits = ((a.equations g boundary).solve settings).1.visits.length := by
  rw [← Graph.countP_isVisited_entries a.direction]
  simp only [Run.visits, solve, equations?, hb, Except.map]
  cases ((a.equations g boundary).solve settings).2 <;> simp [Entry.isVisited]

theorem outcome_solve (hb : g.boundary a.direction = .ok boundary) (settings : Settings) :
    (a.solve settings g).outcome =
      match (a.equations g boundary).solve settings with
      | (_, .error stop) => .error (a.failure (g.causeOf a.direction stop))
      | (last, .ok tally) =>
        .ok ⟨g.factsOf a.direction last.store, ⟨tally, settings.strategy⟩⟩ := by
  simp only [solve, equations?, hb, Except.map]
  cases (a.equations g boundary).solve settings with
  | mk last outcome => cases outcome <;> rfl

section

variable (wf : g.WellFormed) (grows : a.Grows g) {h : Nat}
  (height : HeightAtMost (fun x y : F => x ≤ y) h)
include wf grows height

/-- On a graph that suits the analysis, a run has a result if the visits of as many passes as may be
needed can be counted and a limit, if there is one, allows for so many passes. -/
theorem exists_solution_of_grows (hb : g.boundary a.direction = .ok boundary)
    (few : g.size * (g.size * h + 1) < 2 ^ 64) (settings : Settings)
    (allowed : ∀ limit, settings.maxPasses = some limit → g.size * h + 1 ≤ limit) :
    ∃ s, (a.solve settings g).outcome = .ok s ∧
      (settings.strategy = .roundRobin → s.stats.passes = (a.solve settings g).passes) ∧
      (settings.strategy = .worklist → s.stats.visits = (a.solve settings g).visits) := by
  obtain ⟨order, horder, nodup⟩ := wf.exists_visitOrder a.direction boundary
  obtain ⟨last, outcome, hsolve, -, -, ends⟩ := Equations.solve_ends (complete_equations wf)
    grows.equations (Equations.changesAtMost_of_height grows.equations height) horder nodup settings
  rw [passes_solve hb, visits_solve hb, outcome_solve hb, hsolve]
  obtain ⟨tally, rfl, hrounds, hworklist⟩ | ⟨limit, hlimit, -, short⟩ | ⟨-, many⟩ := ends
  · exact ⟨_, rfl, hrounds, hworklist⟩
  · have enough := allowed limit hlimit
    rw [maxCount, UInt64.size] at short
    omega
  · rw [maxCount, UInt64.size] at many
    omega

/-- A run ends after so many passes or visits as the nodes and edges allow for. On a graph that
suits the analysis it has a result if the visits of so many passes can be counted and a limit, if
there is one, allows for so many passes. Without a limit, no limit is ever said to be reached. -/
theorem run_bounds_of_grows (settings : Settings) :
    (settings.strategy = .roundRobin → (a.solve settings g).passes ≤ g.size * h + 1) ∧
      (settings.strategy = .worklist →
        (a.solve settings g).visits ≤ g.size + h * (a.direction.flow g).edges.card) ∧
      ((∃ boundary, g.boundary a.direction = .ok boundary) →
        (settings.maxPasses = none → ∀ limit,
          (a.solve settings g).outcome ≠ .error (a.failure (.limitReached limit))) ∧
        (g.size * (g.size * h + 1) < 2 ^ 64 →
          (∀ limit, settings.maxPasses = some limit → g.size * h + 1 ≤ limit) →
          ∃ s, (a.solve settings g).outcome = .ok s ∧
            (settings.strategy = .roundRobin → s.stats.passes = (a.solve settings g).passes) ∧
            (settings.strategy = .worklist → s.stats.visits = (a.solve settings g).visits))) := by
  cases hb : g.boundary a.direction with
  | error cause =>
    have stopped : a.solve settings g =
        ⟨[.running g.size settings.strategy], .error (a.failure cause)⟩ := by
      simp [solve, equations?, hb, Except.map]
    simp [stopped, Run.passes, Run.visits, Entry.isPassed, Entry.isVisited]
  | ok boundary =>
    obtain ⟨order, horder, nodup⟩ := wf.exists_visitOrder a.direction boundary
    obtain ⟨last, outcome, hsolve, hpasses, hvisits, ends⟩ := Equations.solve_ends
      (complete_equations wf) grows.equations
      (Equations.changesAtMost_of_height grows.equations height) horder nodup settings
    refine ⟨fun rounds => ?_, fun worklist => ?_, fun _ => ⟨fun hnone limit => ?_,
      fun few => exists_solution_of_grows wf grows height hb few settings⟩⟩
    · rw [passes_solve hb, hsolve]
      exact hpasses rounds
    · rw [visits_solve hb, hsolve]
      exact (hvisits worklist).trans
        (Nat.add_le_add_left (Nat.mul_le_mul_left h (sum_fanOut_le wf)) _)
    · rw [outcome_solve hb, hsolve]
      obtain ⟨tally, rfl, -⟩ | ⟨limit', hlimit', -⟩ | ⟨rfl, -⟩ := ends
      · simp
      · simp [hnone] at hlimit'
      · simp [Graph.causeOf, failure]

end

/-- A fact that is one step older each time a node is visited, up to an age of two, whatever comes
in. -/
def ageing : Analysis Nat (Fin 3) where
  name := "ageing"
  direction := .forward
  boundary := 0
  initial := 0
  meet fact target := max target fact
  transfer _ facts :=
    let after := if facts.after = 2 then 2 else facts.after + 1
    (⟨facts.before, after⟩, .ofBool (after != facts.after))

theorem grows_ageing (g : Graph Nat) : ageing.Grows g where
  output_le _ _ sides := by
    have older : ∀ age : Fin 3, age ≤ if age = 2 then 2 else age + 1 := by decide
    exact older sides.output
  report_iff _ _ _ := Change.ofBool_eq_changed_iff.trans bne_iff_ne

theorem run_bounds_spinning :
    (ageing.solve { maxPasses := some 7 } spinning).passes ≤ 7 ∧
      (ageing.solve { strategy := .worklist, maxPasses := none } spinning).visits ≤ 9 ∧
      ∀ strategy, ∃ s,
        (ageing.solve { strategy, maxPasses := some 7 } spinning).outcome = .ok s := by
  have bounds := run_bounds_of_grows (g := spinning) (by decide) (grows_ageing spinning)
    (heightAtMost_of_rank Fin.val (fun _ _ _ _ => by omega) fun x => Nat.le_of_lt_succ x.isLt)
  refine ⟨(bounds _).1 rfl, (bounds _).2.1 rfl, fun strategy => ?_⟩
  obtain ⟨s, hs, -⟩ := ((bounds { strategy, maxPasses := some 7 }).2.2
    (exists_eq_ok (by decide +kernel))).2 (by decide) (by simp [spinning, Graph.size])
  exact ⟨s, hs⟩

end Analysis

end FlowFacts

import FlowFacts.Proofs.Dataflow.Settings
import FlowFacts.Proofs.Equations.Comparison

/-!
# How the two strategies compare

`Analysis.Contract` is what analyses are asked to meet, over the order of facts that the meet makes
up. Without the check, both strategies come to a result, the facts of the worklist are below those
of rounds in that order, and they are the same exactly if no transfer function would change those of
the worklist. The contract does not see to that (`ageing`).

The check goes by the order of the facts themselves. Where what is above in the order of the meet is
above in that one as well, it makes no difference. Where the two orders are opposite (`remaining`),
it refuses the first visit that changes an output, and a run with a result has not computed
anything.
-/

namespace FlowFacts.Analysis

variable {ν F : Type} {a : Analysis ν F} {g : Graph ν}

/-- The meet is commutative, associative and idempotent. In the order that it makes up, the initial
fact is the least one and facts have bounded height. At the nodes of the graph, the transfer
function is monotone in that order, leaves the input side alone, takes nothing away from the output
side, and reports exactly whether it changed the output side. -/
structure Contract (a : Analysis ν F) (g : Graph ν) (below : F → F → Prop) (h : Nat) : Prop where
  below_iff : ∀ x y, below x y ↔ a.meet x y = y
  meet_comm : ∀ x y, a.meet x y = a.meet y x
  meet_assoc : ∀ x y z, a.meet (a.meet x y) z = a.meet x (a.meet y z)
  meet_self : ∀ x, a.meet x x = x
  initial_below : ∀ x, below a.initial x
  height : HeightAtMost below h
  monotone : ∀ v ∈ g.nodes, ∀ s t : Sides F, below s.input t.input → below s.output t.output →
    below (a.transferSides v s).1.output (a.transferSides v t).1.output
  keeps : ∀ v ∈ g.nodes, ∀ sides, (a.transferSides v sides).1.input = sides.input
  output_below : ∀ v ∈ g.nodes, ∀ sides, below sides.output (a.transferSides v sides).1.output
  report_iff : ∀ v ∈ g.nodes, ∀ sides, (a.transferSides v sides).2 = .changed ↔
    (a.transferSides v sides).1.output ≠ sides.output

namespace Contract

section

variable {below : F → F → Prop} {h : Nat} (contract : a.Contract g below h)
include contract

theorem meet_below {x x' y y' : F} (hx : below x x') (hy : below y y') :
    below (a.meet x y) (a.meet x' y') := by
  rw [contract.below_iff] at *
  calc a.meet (a.meet x y) (a.meet x' y')
      = a.meet x (a.meet (a.meet y x') y') := by rw [contract.meet_assoc, contract.meet_assoc]
    _ = a.meet x (a.meet (a.meet x' y) y') := by rw [contract.meet_comm y]
    _ = a.meet (a.meet x x') (a.meet y y') := by rw [contract.meet_assoc, contract.meet_assoc]
    _ = a.meet x' y' := by rw [hx, hy]

/-- The order that the meet makes up. -/
abbrev order : PartialOrder F where
  le := below
  le_refl x := (contract.below_iff x x).2 (contract.meet_self x)
  le_trans x y z hxy hyz := by
    rw [contract.below_iff] at *
    rw [← hyz, ← contract.meet_assoc, hxy]
  le_antisymm x y hxy hyx := by
    rw [contract.below_iff] at *
    rw [← hyx, contract.meet_comm, hxy]

/-- To compare two facts in the order of the meet is to meet them. -/
abbrev decidableBelow [DecidableEq F] : @DecidableLE F contract.order.toLE :=
  fun x y => decidable_of_iff _ (contract.below_iff x y).symm

end

section

variable [PartialOrder F] {h : Nat} (contract : a.Contract g (fun x y => x ≤ y) h)
include contract

theorem grows : a.Grows g := ⟨contract.output_below, contract.report_iff⟩

theorem isotone [DecidableEq ν] {boundary : Fin g.size} : (a.equations g boundary).Isotone where
  initial_le := contract.initial_below
  meet_le := contract.meet_below
  transfer_le i s t := contract.monotone _ (Graph.node_mem i) s t
  keeps i := contract.keeps _ (Graph.node_mem i)

end

end Contract

variable [DecidableEq ν]

/-- The result of the worklist beside that of rounds: none of its facts exceeds the one of rounds.
The facts are the same exactly if no transfer function would change those of the worklist, and in
any case if transfer functions have nothing to add to what they just did. -/
def Compared (a : Analysis ν F) (g : Graph ν) (below : F → F → Prop)
    (rounds worklist : Solution ν F) : Prop :=
  ∃ X Y : ν → Sides F,
    (∀ v ∈ g.nodes, rounds.facts? v = some (a.direction.place (X v)) ∧
      worklist.facts? v = some (a.direction.place (Y v))) ∧
    (∀ v ∈ g.nodes, below (Y v).input (X v).input ∧ below (Y v).output (X v).output) ∧
    ((∀ v ∈ g.nodes, worklist.facts? v = rounds.facts? v) ↔
      ∀ v ∈ g.nodes, (a.transferSides v (Y v)).1 = Y v) ∧
    ((∀ v ∈ g.nodes, ∀ sides,
        (a.transferSides v (a.transferSides v sides).1).1 = (a.transferSides v sides).1) →
      ∀ v ∈ g.nodes, worklist.facts? v = rounds.facts? v)

namespace Contract

/-! ### Without the check -/

section

variable [PartialOrder F] [DecidableLE F] [DecidableEq F] {h : Nat}
  (contract : a.Contract g (fun x y => x ≤ y) h) (wf : g.WellFormed)
include contract wf

theorem exists_solution {boundary : Fin g.size} (hb : g.boundary a.direction = .ok boundary)
    (few : g.size * (g.size * h + 1) < 2 ^ 64) (strategy : Strategy) (check : Bool) :
    ∃ s, (a.solve ⟨strategy, none, check⟩ g).outcome = .ok s := by
  obtain ⟨s, hs, -⟩ := exists_solution_of_grows wf contract.grows contract.height hb few
    ⟨strategy, none, check⟩ nofun
  exact ⟨s, hs⟩

theorem compared {check check' : Bool} {s t : Solution ν F}
    (hs : (a.solve ⟨.roundRobin, none, check⟩ g).outcome = .ok s)
    (ht : (a.solve ⟨.worklist, none, check'⟩ g).outcome = .ok t) :
    Compared a g (fun x y => x ≤ y) s t := by
  obtain ⟨boundary, last, tally, hb, hrun, rfl⟩ := solve_eq_ok hs
  obtain ⟨boundary', last', tally', hb', hrun', rfl⟩ := solve_eq_ok ht
  cases hb.symm.trans hb'
  obtain ⟨below, same_iff, same⟩ := Equations.compare_solve contract.isotone
    contract.grows.equations (wired_equations wf) hrun rfl hrun'
  obtain ⟨X, hX, facts⟩ := exists_facts a wf.nodup last.store ⟨tally, .roundRobin⟩
  obtain ⟨Y, hY, facts'⟩ := exists_facts a wf.nodup last'.store ⟨tally', .worklist⟩
  refine ⟨X, Y, fun v hv => ⟨facts v hv, facts' v hv⟩, Graph.forall_node.2 fun i => ?_, ?_, ?_⟩
  · rw [hX, hY]
    exact below i
  · simp only [Graph.forall_node, facts?_factsOf wf.nodup, Option.some.injEq,
      a.direction.place_injective.eq_iff, hY]
    exact same_iff
  · simp only [Graph.forall_node, facts?_factsOf wf.nodup, Option.some.injEq,
      a.direction.place_injective.eq_iff]
    exact same

end

variable [LE F] [DecidableLE F] [DecidableEq F] {below : F → F → Prop} {h : Nat}
  (contract : a.Contract g below h) {boundary : Fin g.size}
include contract

/-- A run that is not checked has a result, as it has in the order of the meet. -/
theorem exists_unchecked (wf : g.WellFormed) (hb : g.boundary a.direction = .ok boundary)
    (few : g.size * (g.size * h + 1) < 2 ^ 64) (strategy : Strategy) :
    ∃ s, (a.solve ⟨strategy, none, false⟩ g).outcome = .ok s := by
  rw [solve_unchecked a g _ contract.order.toLE _ contract.decidableBelow]
  exact @exists_solution ν F a g _ contract.order contract.decidableBelow _ h contract wf
    boundary hb few strategy false

theorem compared_unchecked (wf : g.WellFormed) {s t : Solution ν F}
    (hs : (a.solve ⟨.roundRobin, none, false⟩ g).outcome = .ok s)
    (ht : (a.solve ⟨.worklist, none, false⟩ g).outcome = .ok t) : Compared a g below s t := by
  rw [solve_unchecked a g _ contract.order.toLE _ contract.decidableBelow] at hs ht
  exact @compared ν F a g _ contract.order contract.decidableBelow _ h contract wf
    false false s t hs ht

/-! ### With the check -/

section

variable {visits : List (Visit g.size F)} {store : Store g.size F} {v : Visit g.size F}
  (trail : (a.equations g boundary).Trail visits store) (hv : v ∈ visits)
include trail hv

omit [LE F] [DecidableLE F] [DecidableEq F] in
theorem below_of_visit : below v.found.output v.left.output := by
  have transfer : a.transferSides (g.node v.node) v.found = (v.left, v.report) :=
    trail.transfer_eq hv
  simpa only [transfer] using contract.output_below _ (Graph.node_mem v.node) v.found

omit [DecidableLE F] [DecidableEq F] in
/-- Reports are exact, so all that the check can find is that an output is not above the one before
it. -/
theorem sound_iff : v.Sound ↔ v.found.output ≤ v.left.output := by
  have transfer : a.transferSides (g.node v.node) v.found = (v.left, v.report) :=
    trail.transfer_eq hv
  refine ⟨Visit.Sound.output_le, fun above => ⟨above, ?_⟩⟩
  simpa only [transfer] using contract.report_iff _ (Graph.node_mem v.node) v.found

end

/-- The check makes no difference to a run in which outputs only go up in the order of the facts,
and else refuses the first visit where one does not. -/
theorem checked_cases (hb : g.boundary a.direction = .ok boundary) (strategy : Strategy)
    (limit? : Option Nat) :
    let checked := a.solve ⟨strategy, limit?, true⟩ g
    let visits := ((a.equations g boundary).solve ⟨strategy, limit?, false⟩).1.visits.reverse
    checked = a.solve ⟨strategy, limit?, false⟩ g ∧
        (∀ v ∈ visits, v.found.output ≤ v.left.output) ∨
      ∃ earlier v later, visits = earlier ++ v :: later ∧
        (∀ u ∈ earlier, u.found.output ≤ u.left.output) ∧ ¬ v.found.output ≤ v.left.output ∧
        below v.found.output v.left.output ∧
        checked.outcome = .error (a.failure (.notMonotone (g.node v.node))) := by
  intro checked visits
  have trail := (a.equations g boundary).trail_solve ⟨strategy, limit?, false⟩
  have sound_iff : ∀ v ∈ visits, v.Sound ↔ v.found.output ≤ v.left.output := fun v hv =>
    contract.sound_iff trail (List.mem_reverse.1 hv)
  obtain ⟨same, sound⟩ | ⟨earlier, v, later, what, decomposed, sound, hwhat, outcome, -⟩ :=
    solve_checked_cases hb strategy limit?
  · exact .inl ⟨same, fun v hv => (sound_iff v hv).1 (sound v hv)⟩
  · have hmem : ∀ u, u ∈ earlier ++ v :: later → u ∈ visits := fun u hu => by
      rwa [show visits = earlier ++ v :: later from decomposed]
    have hv : v ∈ visits := hmem v (List.mem_append_right _ List.mem_cons_self)
    have broken : ¬ v.Sound := by
      rw [← Visit.misstep?_eq_none_iff, hwhat]
      exact Option.some_ne_none what
    refine .inr ⟨earlier, v, later, decomposed,
      fun u hu => (sound_iff u (hmem u (List.mem_append_left _ hu))).1 (sound u hu),
      mt (sound_iff v hv).2 broken, contract.below_of_visit trail (List.mem_reverse.1 hv), ?_⟩
    obtain ⟨-, rfl⟩ | ⟨above, -⟩ := Visit.misstep?_eq_some_iff.1 hwhat
    · exact outcome
    · exact absurd ((sound_iff v hv).2 above) broken

/-- Where the two orders are opposite, a result that stands up to the check has the outputs that all
nodes start from. -/
theorem output_of_opposite (wf : g.WellFormed) (opposite : ∀ x y, x ≤ y → below y x)
    {strategy : Strategy} {limit? : Option Nat} {s : Solution ν F}
    (hs : (a.solve ⟨strategy, limit?, true⟩ g).outcome = .ok s) :
    ∀ v ∈ g.nodes, ∃ input, s.facts? v = some (a.direction.place ⟨input, a.initial⟩) := by
  have hs' := outcome_unchecked hs
  obtain ⟨boundary, last, tally, hb, hrun, rfl⟩ := solve_eq_ok hs'
  have trail := Equations.trail_of_solve hrun
  have still : ∀ v ∈ last.visits, v.left.output = v.found.output := by
    intro v hv
    obtain ⟨-, above⟩ | ⟨_, _, _, -, -, -, -, outcome⟩ := contract.checked_cases hb strategy limit?
    · rw [hrun] at above
      exact contract.order.le_antisymm _ _ (opposite _ _ (above v (List.mem_reverse.2 hv)))
        (contract.below_of_visit trail hv)
    · cases hs.symm.trans outcome
  refine Graph.forall_node.2 fun i => ⟨(last.store.get i).input, ?_⟩
  rw [facts?_factsOf wf.nodup]
  exact congrArg (fun output => some (a.direction.place ⟨(last.store.get i).input, output⟩))
    (trail.output_eq_initial still i)

end Contract

variable [LE F] [DecidableLE F] [DecidableEq F]

/-- Without the check, both strategies come to a result, whatever order the facts have, and so they
do with the check where this order agrees with the one that the meet makes up. Wherever it does not,
a checked run is the unchecked one if outputs only go up in the order of the facts, and else fails
at the first visit where one does not; if the two orders are opposite, then a result has the outputs
that all nodes start from. In the order of the meet, no fact of the worklist exceeds that of rounds.
The results have the same facts exactly if no transfer function would change those of the worklist,
and in any case if transfer functions have nothing to add to what they just did. -/
theorem results_compare_of_contract (wf : g.WellFormed) {below : F → F → Prop} {h : Nat}
    (contract : a.Contract g below h) :
    ((∃ boundary, g.boundary a.direction = .ok boundary) → g.size * (g.size * h + 1) < 2 ^ 64 →
      ∀ strategy check, (check = true → ∀ x y, below x y → x ≤ y) →
        ∃ s, (a.solve ⟨strategy, none, check⟩ g).outcome = .ok s) ∧
    (∀ boundary, g.boundary a.direction = .ok boundary → ∀ strategy limit?,
      let checked := a.solve ⟨strategy, limit?, true⟩ g
      let visits := ((a.equations g boundary).solve ⟨strategy, limit?, false⟩).1.visits.reverse
      checked = a.solve ⟨strategy, limit?, false⟩ g ∧
          (∀ v ∈ visits, v.found.output ≤ v.left.output) ∨
        ∃ earlier v later, visits = earlier ++ v :: later ∧
          (∀ u ∈ earlier, u.found.output ≤ u.left.output) ∧ ¬ v.found.output ≤ v.left.output ∧
          below v.found.output v.left.output ∧
          checked.outcome = .error (a.failure (.notMonotone (g.node v.node)))) ∧
    ((∀ x y, x ≤ y → below y x) → ∀ strategy limit? s,
      (a.solve ⟨strategy, limit?, true⟩ g).outcome = .ok s →
        ∀ v ∈ g.nodes, ∃ input, s.facts? v = some (a.direction.place ⟨input, a.initial⟩)) ∧
    ∀ check check' s t, (a.solve ⟨.roundRobin, none, check⟩ g).outcome = .ok s →
      (a.solve ⟨.worklist, none, check'⟩ g).outcome = .ok t → Compared a g below s t := by
  refine ⟨?_, fun boundary hb => contract.checked_cases hb, fun opposite strategy limit? s =>
    contract.output_of_opposite wf opposite, fun check check' s t hs ht =>
      contract.compared_unchecked wf (outcome_unchecked hs) (outcome_unchecked ht)⟩
  rintro ⟨boundary, hb⟩ few strategy check agree
  obtain ⟨s, hs⟩ := contract.exists_unchecked wf hb few strategy
  cases check with
  | false => exact ⟨s, hs⟩
  | true =>
    obtain ⟨same, -⟩ | ⟨_, v, _, -, -, shrank, below, -⟩ := contract.checked_cases hb strategy none
    · exact ⟨s, same ▸ hs⟩
    · exact absurd (agree rfl _ _ below) shrank

/-! ### Analyses that meet the contract -/

theorem contract_ageing (g : Graph Nat) : ageing.Contract g (fun x y => x ≤ y) 2 where
  below_iff := by decide
  meet_comm := by decide
  meet_assoc := by decide
  meet_self := by decide
  initial_below := by decide
  height := heightAtMost_of_rank Fin.val (fun _ _ _ _ => by omega) fun x => Nat.le_of_lt_succ x.isLt
  monotone _ _ s t _ older := by
    have ages : ∀ x y : Fin 3, x ≤ y →
        (if x = 2 then 2 else x + 1) ≤ if y = 2 then 2 else y + 1 := by decide
    exact ages s.output t.output older
  keeps _ _ _ := rfl
  output_below := (grows_ageing g).output_le
  report_iff := (grows_ageing g).report_iff

/-- Which of two elements are left on every way to a node, where node 0 takes one of them away. The
meet is the intersection, so facts go on to smaller sets, while sets compare by inclusion all the
same. -/
def remaining : Analysis Nat (Finset (Fin 2)) where
  name := "remaining"
  direction := .forward
  boundary := .univ
  initial := .univ
  meet fact target := target ∩ fact
  transfer v facts :=
    let after := facts.after ∩ (facts.before \ if v = 0 then {0} else ∅)
    (⟨facts.before, after⟩, .ofBool (after != facts.after))

theorem contract_remaining (g : Graph Nat) : remaining.Contract g (fun x y => y ⊆ x) 2 where
  below_iff _ _ := Finset.inter_eq_left.symm
  meet_comm _ _ := Finset.inter_comm _ _
  meet_assoc x y z := (Finset.inter_assoc z y x).symm
  meet_self _ := Finset.inter_self _
  initial_below _ := Finset.subset_univ _
  height := by
    refine heightAtMost_of_rank (fun x => 2 - x.card) (fun x y below apart => ?_) fun x => by omega
    have fewer := Finset.card_lt_card (below.ssubset_of_ne apart.symm)
    have most : x.card ≤ 2 := by simpa using x.card_le_univ
    omega
  monotone _ _ _ _ input output :=
    Finset.inter_subset_inter output (Finset.sdiff_subset_sdiff input le_rfl)
  keeps _ _ _ := rfl
  output_below _ _ _ := Finset.inter_subset_left
  report_iff _ _ _ := Change.ofBool_eq_changed_iff.trans bne_iff_ne

theorem results_compare_spinning :
    (∃ s t, (ageing.solve ⟨.roundRobin, none, true⟩ spinning).outcome = .ok s ∧
      (ageing.solve ⟨.worklist, none, true⟩ spinning).outcome = .ok t ∧
      Compared ageing spinning (fun x y => x ≤ y) s t) ∧
    (∃ s t, (remaining.solve ⟨.roundRobin, none, false⟩ spinning).outcome = .ok s ∧
      (remaining.solve ⟨.worklist, none, false⟩ spinning).outcome = .ok t ∧
      ∀ v ∈ spinning.nodes, t.facts? v = s.facts? v) ∧
    ∃ v, (remaining.solve ⟨.worklist, none, true⟩ spinning).outcome =
      .error (remaining.failure (.notMonotone v)) := by
  have boundary : spinning.boundary .forward = .ok ⟨0, by decide⟩ := by decide +kernel
  obtain ⟨results, -, -, compare⟩ :=
    results_compare_of_contract (g := spinning) (by decide) (contract_ageing spinning)
  obtain ⟨results', checked, -, compare'⟩ :=
    results_compare_of_contract (g := spinning) (by decide) (contract_remaining spinning)
  refine ⟨?_, ?_, ?_⟩
  · obtain ⟨s, hs⟩ := results ⟨_, boundary⟩ (by decide) .roundRobin true fun _ _ _ => id
    obtain ⟨t, ht⟩ := results ⟨_, boundary⟩ (by decide) .worklist true fun _ _ _ => id
    exact ⟨s, t, hs, ht, compare _ _ s t hs ht⟩
  · obtain ⟨s, hs⟩ := results' ⟨_, boundary⟩ (by decide) .roundRobin false nofun
    obtain ⟨t, ht⟩ := results' ⟨_, boundary⟩ (by decide) .worklist false nofun
    obtain ⟨X, Y, -, -, -, same⟩ := compare' _ _ s t hs ht
    refine ⟨s, t, hs, ht, same fun v _ sides => Sides.ext rfl ?_⟩
    exact Finset.inter_eq_left.2 Finset.inter_subset_right
  · obtain ⟨-, above⟩ | ⟨earlier, v, later, -, -, -, -, outcome⟩ :=
      checked _ boundary .worklist none
    · exact absurd above (by decide +kernel)
    · exact ⟨_, outcome⟩

/-- The contract is not enough for both strategies to give the same facts. A node that goes on
ageing for as long as it is visited has another age in rounds than with the worklist, which visits
it once. And where the meet is the intersection, both strategies refuse the first transfer function
that does anything. -/
theorem contract_insufficient :
    spinning.WellFormed ∧ spinning.boundary .forward = .ok ⟨0, by decide⟩ ∧
      (ageing.Contract spinning (fun x y => x ≤ y) 2 ∧
        (∃ s, (ageing.solve ⟨.roundRobin, none, true⟩ spinning).outcome = .ok s ∧
          s.facts? 0 = some ⟨0, 2⟩) ∧
        ∃ t, (ageing.solve ⟨.worklist, none, true⟩ spinning).outcome = .ok t ∧
          t.facts? 0 = some ⟨0, 1⟩) ∧
      remaining.Contract spinning (fun x y => y ⊆ x) 2 ∧
        ∀ strategy, (remaining.solve ⟨strategy, none, true⟩ spinning).outcome =
          .error (remaining.failure (.notMonotone 0)) := by
  refine ⟨by decide, by decide +kernel, ⟨contract_ageing _, by decide +kernel, by decide +kernel⟩,
    contract_remaining _, fun strategy => ?_⟩
  cases strategy <;> rfl

end FlowFacts.Analysis

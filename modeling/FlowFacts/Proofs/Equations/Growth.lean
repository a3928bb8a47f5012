import Mathlib.Algebra.BigOperators.Ring.Finset
import Mathlib.Algebra.Order.BigOperators.Group.Finset
import FlowFacts.Proofs.Equations.Trail

/-!
# Facts that only grow

Where transfer functions take nothing away from an output and report exactly whether they changed it
(`Equations.Grows`), every visit passes its checks, and the outputs that a node goes through on a
trail are an ascending chain (`Trail.exists_chain`). Over facts of bounded height the changes on a
trail are therefore bounded (`Equations.changesAtMost_of_height`), and so is what is paid for them
(`Equations.cost_le`). Where meets are monotone (`Equations.MeetsUpward`), a node collects the more,
the larger the outputs are.
-/

namespace FlowFacts

/-- No chain of facts that ascends strictly in an order has more than `h` steps. -/
def HeightAtMost {F : Type} (below : F → F → Prop) (h : Nat) : Prop :=
  ∀ chain : List F, chain.IsChain (fun x y => below x y ∧ x ≠ y) → chain.length ≤ h + 1

theorem heightAtMost_of_rank {F : Type} {below : F → F → Prop} {h : Nat} (rank : F → Nat)
    (ascends : ∀ x y, below x y → x ≠ y → rank x < rank y) (bounded : ∀ x, rank x ≤ h) :
    HeightAtMost below h := by
  -- By induction on the chain: what comes after `x` fits between the rank of `x` and `h`.
  have above : ∀ (chain : List F) x, (x :: chain).IsChain (fun x y => below x y ∧ x ≠ y) →
      rank x + chain.length ≤ h := by
    intro chain
    induction chain with
    | nil => exact fun x _ => bounded x
    | cons y rest ih =>
      intro x hchain
      obtain ⟨hxy, hrest⟩ := List.isChain_cons_cons.1 hchain
      have hrank := ascends x y hxy.1 hxy.2
      have := ih y hrest
      rw [List.length_cons]
      omega
  intro chain hchain
  cases chain with
  | nil => exact Nat.zero_le _
  | cons x rest =>
    have := above rest x hchain
    rw [List.length_cons]
    omega

namespace Equations

variable {n : Nat} {F : Type} {E : Equations n F}

/-- Transfer functions take nothing away from an output, and report exactly whether they changed
it. -/
structure Grows [LE F] (E : Equations n F) : Prop where
  output_le : ∀ i facts, facts.output ≤ (E.transfer i facts).1.output
  report_iff : ∀ i facts, (E.transfer i facts).2 = .changed ↔
    (E.transfer i facts).1.output ≠ facts.output

namespace Grows

variable [LE F] (grows : E.Grows) {store : Store n F} {i : Fin n} {v : Visit n F}
include grows

theorem output_le_of_visit (hv : E.visit store i = .ok v) : v.found.output ≤ v.left.output := by
  obtain ⟨-, -, -, htransfer⟩ := visit_eq_ok_iff.1 hv
  simpa [htransfer] using grows.output_le i v.found

theorem report_of_visit (hv : E.visit store i = .ok v) :
    v.report = .changed ↔ v.left.output ≠ v.found.output := by
  obtain ⟨-, -, -, htransfer⟩ := visit_eq_ok_iff.1 hv
  simpa [htransfer] using grows.report_iff i v.found

theorem output_eq_of_unchanged (hv : E.visit store i = .ok v) (quiet : v.report = .unchanged) :
    v.left.output = v.found.output := by
  by_contra changed
  cases quiet.symm.trans ((grows.report_of_visit hv).2 changed)

theorem misstep?_eq_none [DecidableLE F] [DecidableEq F] (hv : E.visit store i = .ok v) :
    v.misstep? = none :=
  Visit.misstep?_eq_none_iff.2 ⟨grows.output_le_of_visit hv, grows.report_of_visit hv⟩

end Grows

/-! ### Where more is collected -/

/-- Facts are collected from the least one on, and there is more to collect where there is more. -/
structure MeetsUpward [LE F] (E : Equations n F) : Prop where
  initial_le : ∀ x, E.initial ≤ x
  meet_le : ∀ {x x' y y'}, x ≤ x' → y ≤ y' → E.meet x y ≤ E.meet x' y'

namespace MeetsUpward

variable [LE F] (meets : E.MeetsUpward) {store bound : Store n F}
include meets

theorem meetOver_le {sources : List (Fin n)}
    (h : ∀ j ∈ sources, (store.get j).output ≤ (bound.get j).output) :
    E.meetOver store sources ≤ E.meetOver bound sources :=
  List.foldl_rel (meets.initial_le _) fun j hj _ _ below => meets.meet_le (h j hj) below

theorem gather_le {i : Fin n} {y : F}
    (own : i = E.boundary → (store.get i).input ≤ (bound.get i).input)
    (outputs : ∀ j, (store.get j).output ≤ (bound.get j).output) (h : E.gather bound i = .ok y) :
    ∃ x, E.gather store i = .ok x ∧ x ≤ y := by
  obtain ⟨rfl, rfl⟩ | ⟨hi, sources, hs, rfl⟩ := gather_eq_ok_iff.1 h
  · exact ⟨_, gather_boundary store, own rfl⟩
  · exact ⟨_, by rw [gather_of_ne hi, hs]; rfl, meets.meetOver_le fun j _ => outputs j⟩

end MeetsUpward

/-! ### Changes on a trail -/

/-- How often visits changed the output of a node. -/
def changes (visits : List (Visit n F)) (i : Fin n) : Nat :=
  visits.countP fun v => decide (v.node = i) && v.report.isChanged

theorem changes_cons (v : Visit n F) (visits : List (Visit n F)) (i : Fin n) :
    changes (v :: visits) i =
      changes visits i + if v.node = i ∧ v.report = .changed then 1 else 0 := by
  rw [changes, List.countP_cons, ← changes]
  cases hr : v.report <;> simp [Change.isChanged]

/-- What is paid for visits if each change at a node has a price. -/
def cost (price : Fin n → Nat) (visits : List (Visit n F)) : Nat :=
  ∑ i, changes visits i * price i

theorem cost_cons (price : Fin n → Nat) (v : Visit n F) (visits : List (Visit n F)) :
    cost price (v :: visits) =
      cost price visits + if v.report = .changed then price v.node else 0 := by
  have hterm : ∀ i, changes (v :: visits) i * price i = changes visits i * price i +
      if v.node = i then (if v.report = .changed then price i else 0) else 0 := by
    intro i
    rw [changes_cons, Nat.add_mul]
    by_cases hi : v.node = i <;> by_cases hr : v.report = .changed <;> simp [hi, hr]
  simp only [cost, hterm, Finset.sum_add_distrib, Finset.sum_ite_eq, Finset.mem_univ, if_true]

theorem cost_le {visits : List (Visit n F)} {h : Nat} (bounded : ∀ i, changes visits i ≤ h)
    (price : Fin n → Nat) : cost price visits ≤ h * ∑ i, price i := by
  rw [Finset.mul_sum]
  exact Finset.sum_le_sum fun i _ => Nat.mul_le_mul_right _ (bounded i)

/-- On no trail does a node change more often than so. -/
def ChangesAtMost (E : Equations n F) (h : Nat) : Prop :=
  ∀ {visits store}, E.Trail visits store → ∀ i, changes visits i ≤ h

variable [LE F]

/-- The outputs of a node on a trail, the latest first, go down in as many steps as it changed. -/
theorem Trail.exists_chain {visits : List (Visit n F)} {store : Store n F}
    (h : E.Trail visits store) (grows : E.Grows) (i : Fin n) :
    ∃ earlier : List F, ((store.get i).output :: earlier).IsChain (fun x y => y ≤ x ∧ y ≠ x) ∧
      earlier.length = changes visits i := by
  induction h with
  | seed => exact ⟨[], .singleton _, rfl⟩
  | @visit visits store j v _ hv ih =>
    obtain ⟨earlier, chain, hlength⟩ := ih
    obtain ⟨hnode, -, hfound, -⟩ := visit_eq_ok_iff.1 hv
    rw [Store.get_put, changes_cons, ← hlength, hnode]
    -- A visit of another node leaves the chain as it is, and so does one without a change.
    by_cases hj : j = i
    · rw [if_pos hj]
      rw [hj] at hfound
      cases hr : v.report with
      | changed =>
        have hle := grows.output_le_of_visit hv
        have hne := (grows.report_of_visit hv).1 hr
        rw [hfound] at hle hne
        exact ⟨(store.get i).output :: earlier, .cons_cons ⟨hle, hne.symm⟩ chain, by simp [hj]⟩
      | unchanged =>
        have same := (grows.output_eq_of_unchanged hv hr).trans hfound
        exact ⟨earlier, by rwa [same], by simp⟩
    · exact ⟨earlier, by rwa [if_neg hj], by simp [hj]⟩

theorem changesAtMost_of_height (grows : E.Grows) {h : Nat}
    (height : HeightAtMost (fun x y : F => x ≤ y) h) :
    E.ChangesAtMost h := by
  intro visits store trail i
  obtain ⟨earlier, chain, hlength⟩ := trail.exists_chain grows i
  have hchain := height _ (List.isChain_reverse.2 chain)
  rw [List.length_reverse, List.length_cons, hlength] at hchain
  omega

end Equations

end FlowFacts

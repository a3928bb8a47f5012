import Mathlib.Data.Finset.Card
import Mathlib.Data.Finset.SDiff
import Mathlib.Logic.Function.Basic
import FlowFacts.Proofs.FactSet

/-!
# Operations on named sets

Any number of sets go by names, and an `Operation` changes one of them, its target, by itself or
with the help of another one, which may be the same (`FactSet.perform`). Beside that stands what it
comes to on finite sets, with reports that compare the elements before and after and not their
number (`FactSet.expected`). After any operations the named sets have just the elements that they
should have, and all answers on the way were right (`FactSet.operations_exact`).
-/

namespace FlowFacts.FactSet

variable {α κ V W : Type}

/-! ### What can be done -/

/-- A way of changing a set with the help of another one. -/
inductive Combination where
  | join
  | meet
  | subtract
  | assign

/-- What can be done to a set. Its name comes first. -/
inductive Operation (κ α : Type) where
  | add (k : κ) (a : α)
  | remove (k : κ) (a : α)
  | extend (k : κ) (as : List α)
  | clear (k : κ)
  /-- The first name is given to a copy of the set that the second one stands for. -/
  | copy (k l : κ)
  | combine (c : Combination) (k l : κ)

/-- What an operation has to say. -/
inductive Answer where
  | done
  /-- Whether an element was put in or taken out. -/
  | moved (b : Bool)
  /-- Whether the set was changed. -/
  | report (c : Change)
deriving DecidableEq

/-- The name of the set that an operation changes. -/
def Operation.target : Operation κ α → κ
  | .add k _ | .remove k _ | .extend k _ | .clear k | .copy k _ | .combine _ k _ => k

/-- Do operations one after the other, given what each makes of its target and what it says. -/
def performAll [DecidableEq κ] (effect : (κ → V) → Operation κ α → V × Answer) :
    List (Operation κ α) → (κ → V) → (κ → V) × List Answer
  | [], values => (values, [])
  | op :: ops, values =>
    let (value, answer) := effect values op
    let (last, answers) := performAll effect ops (Function.update values op.target value)
    (last, answer :: answers)

section

variable [DecidableEq κ] {effect : (κ → V) → Operation κ α → V × Answer}
  {effect' : (κ → W) → Operation κ α → W × Answer}

/-- If a view of the values agrees with each single operation, it agrees with any number of them. -/
theorem performAll_view (view : V → W)
    (agrees : ∀ values op, effect' (view ∘ values) op =
      (view (effect values op).1, (effect values op).2))
    (ops : List (Operation κ α)) (values : κ → V) :
    performAll effect' ops (view ∘ values) =
      (view ∘ (performAll effect ops values).1, (performAll effect ops values).2) := by
  induction ops generalizing values with
  | nil => rfl
  | cons op ops ih => simp only [performAll, agrees, ← Function.comp_update, ih]

/-- What no operation has as its target stays as it is. -/
theorem performAll_of_ne {k : κ} (ops : List (Operation κ α)) (values : κ → V)
    (other : ∀ op ∈ ops, op.target ≠ k) : (performAll effect ops values).1 k = values k := by
  induction ops generalizing values with
  | nil => rfl
  | cons op ops ih =>
    obtain ⟨apart, other⟩ := List.forall_mem_cons.1 other
    exact (ih _ other).trans (Function.update_of_ne apart.symm _ _)

end

/-! ### On finite sets -/

variable [DecidableEq α]

/-- What becomes of the first of two sets that are combined. -/
def Combination.onFinsets : Combination → Finset α → Finset α → Finset α
  | join, s, t => s ∪ t
  | meet, s, t => s ∩ t
  | subtract, s, t => s \ t
  | assign, _, t => t

/-- What the target of an operation is to become. -/
def Operation.result (sets : κ → Finset α) : Operation κ α → Finset α
  | .add k a => insert a (sets k)
  | .remove k a => (sets k).erase a
  | .extend k as => sets k ∪ as.toFinset
  | .clear _ => ∅
  | .copy _ l => sets l
  | .combine c k l => c.onFinsets (sets k) (sets l)

/-- What an operation is to say that makes one set of another. -/
def Operation.rightAnswer (before after : Finset α) : Operation κ α → Answer
  | .add _ a | .remove _ a => .moved (decide (¬ (a ∈ before ↔ a ∈ after)))
  | .combine .. => .report (.ofBool (decide (after ≠ before)))
  | .extend .. | .clear _ | .copy .. => .done

/-- What an operation is to make of its target, and what it is to say. -/
def expected (sets : κ → Finset α) (op : Operation κ α) : Finset α × Answer :=
  (op.result sets, op.rightAnswer (sets op.target) (op.result sets))

/-! ### On sets of facts -/

variable [Ord α] [Std.TransOrd α] [Std.LawfulEqOrd α] {s t : FactSet α} {a : α}

/-- Combine the first set with the second one, and tell whether that changed the first. -/
def Combination.run : Combination → FactSet α → FactSet α → FactSet α × Change
  | join, s, t => s.join t
  | meet, s, t => s.meet t
  | subtract, s, t => s.subtract t
  | assign, s, t => s.assign t

/-- What an operation makes of its target, and what it says. -/
def perform (values : κ → FactSet α) : Operation κ α → FactSet α × Answer
  | .add k a => ((values k).add a).map id .moved
  | .remove k a => ((values k).remove a).map id .moved
  | .extend k as => ((values k).insertMany as, .done)
  | .clear _ => (∅, .done)
  | .copy _ l => (values l, .done)
  | .combine c k l => (c.run (values k) (values l)).map id .report

/-! ### The elements of a set -/

/-- The elements of a set, as a finite set. -/
def elements (s : FactSet α) : Finset α := s.toList.toFinset

@[simp] theorem mem_elements : a ∈ elements s ↔ a ∈ s := by
  rw [elements, List.mem_toFinset, Std.ExtTreeSet.mem_toList]

omit [Std.LawfulEqOrd α] in
theorem card_elements (s : FactSet α) : (elements s).card = s.size := by
  rw [elements, List.toFinset_card_of_nodup (nodup_toList s), Std.ExtTreeSet.length_toList]

theorem elements_injective : Function.Injective (elements : FactSet α → Finset α) := by
  intro s t same
  refine Std.ExtTreeSet.ext_mem fun a => ?_
  rw [← mem_elements, same, mem_elements]

theorem elements_insert (s : FactSet α) (a : α) :
    elements (s.insert a) = insert a (elements s) := by
  ext b
  simp [Std.ExtTreeSet.mem_insert, eq_comm (a := b)]

theorem elements_erase (s : FactSet α) (a : α) : elements (s.erase a) = (elements s).erase a := by
  ext b
  simp [Std.ExtTreeSet.mem_erase, eq_comm (a := b)]

theorem elements_insertMany (s : FactSet α) (as : List α) :
    elements (s.insertMany as) = elements s ∪ as.toFinset := by
  ext b
  simp [Std.ExtTreeSet.mem_insertMany_list]

theorem elements_combination (c : Combination) (s t : FactSet α) :
    elements (c.run s t).1 = c.onFinsets (elements s) (elements t) := by
  ext b
  cases c with
  | join => simp [Combination.run, Combination.onFinsets, Std.ExtTreeSet.mem_union_iff]
  | meet => simp [Combination.run, Combination.onFinsets, Std.ExtTreeSet.mem_inter_iff]
  | subtract => simp [Combination.run, Combination.onFinsets, Std.ExtTreeSet.mem_diff_iff]
  | assign => simp [Combination.run, Combination.onFinsets]

omit [DecidableEq α] in
/-- A combination reports a change exactly if there is one. All but the assignment go by the number
of elements. -/
theorem report_combination (c : Combination) (s t : FactSet α) :
    (c.run s t).2 = .ofBool (decide ((c.run s t).1 ≠ s)) := by
  cases c with
  | join => exact resized_snd (.inl le_sup_left)
  | meet => exact resized_snd (.inr inf_le_left)
  | subtract => exact resized_snd (.inr sdiff_le)
  | assign => exact (assign_snd s t).trans (by rw [Combination.run, assign_fst])

omit [Std.LawfulEqOrd α] [DecidableEq α] in
theorem contains_eq (s : FactSet α) (a : α) : s.contains a = decide (a ∈ s) := by
  rw [Bool.eq_iff_iff, Std.ExtTreeSet.contains_iff_mem, decide_eq_true_iff]

/-- One operation makes of its target what it should, and says what it should. -/
theorem expected_elements (values : κ → FactSet α) (op : Operation κ α) :
    expected (elements ∘ values) op = (elements (perform values op).1, (perform values op).2) := by
  cases op with
  | add k a =>
    refine Prod.ext (elements_insert (values k) a).symm (congrArg Answer.moved ?_)
    simp [Operation.result, Operation.target, contains_eq]
  | remove k a =>
    refine Prod.ext (elements_erase (values k) a).symm (congrArg Answer.moved ?_)
    simp [Operation.result, Operation.target, contains_eq]
  | extend k as => exact Prod.ext (elements_insertMany (values k) as).symm rfl
  | clear k => rfl
  | copy k l => rfl
  | combine c k l =>
    have becomes := elements_combination c (values k) (values l)
    have changes : c.onFinsets (elements (values k)) (elements (values l)) ≠ elements (values k) ↔
        (c.run (values k) (values l)).1 ≠ values k := becomes ▸ elements_injective.ne_iff
    refine Prod.ext becomes.symm (congrArg Answer.report ?_)
    exact (congrArg Change.ofBool (decide_eq_decide.2 changes)).trans
      (report_combination c _ _).symm

variable [DecidableEq κ]

/-- Whatever is done to any number of sets, also to one with its own help, each of them has the
elements that it should have, and its size is their number. Every answer on the way was right: that
an element was put in or taken out if it was there before or after but not both times, and that a
set was changed if it had other elements afterwards. Two sets are equal exactly if they have the
same elements, whatever was done to them, and a set that was not the target of any operation is what
it was. -/
theorem operations_exact (ops : List (Operation κ α)) (start : κ → FactSet α) :
    let real := performAll perform ops start
    let ideal := performAll expected ops (elements ∘ start)
    (∀ k a, a ∈ real.1 k ↔ a ∈ ideal.1 k) ∧ (∀ k, (real.1 k).size = (ideal.1 k).card) ∧
      real.2 = ideal.2 ∧ (∀ k l, real.1 k = real.1 l ↔ ideal.1 k = ideal.1 l) ∧
      ∀ k, (∀ op ∈ ops, op.target ≠ k) → real.1 k = start k := by
  intro real ideal
  have same : ideal = (elements ∘ real.1, real.2) :=
    performAll_view elements expected_elements ops start
  rw [same]
  refine ⟨fun k a => mem_elements.symm, fun k => (card_elements _).symm, rfl, fun k l => ?_,
    fun k other => ?_⟩
  · exact elements_injective.eq_iff.symm
  · exact performAll_of_ne ops start other

/-- Two sets that are put together, taken apart, copied, and combined with each other and with
themselves. -/
def session : List (Operation Nat Nat) :=
  [.add 0 3, .extend 0 [1, 3, 1], .add 0 1, .copy 1 0, .remove 1 1,
    .combine .join 0 1, .combine .subtract 0 1, .combine .join 0 0,
    .combine .assign 1 0, .combine .meet 1 0, .combine .subtract 1 1]

theorem operations_exact_session :
    let real := performAll perform session fun _ => ∅
    real.2 =
        [.moved true, .done, .moved false, .done, .moved true,
          .report .unchanged, .report .changed, .report .unchanged,
          .report .changed, .report .unchanged, .report .changed] ∧
      (∀ a, a ∈ real.1 0 ↔ a = 1) ∧ (real.1 0).size = 1 ∧ real.1 0 ≠ real.1 1 ∧ real.1 1 = ∅ ∧
        real.1 2 = ∅ := by
  intro real
  obtain ⟨members, sizes, answers, same, untouched⟩ :=
    operations_exact session fun _ => (∅ : FactSet Nat)
  have first : (performAll expected session (elements ∘ fun _ => (∅ : FactSet Nat))).1 0 = {1} := by
    decide
  have second : (performAll expected session (elements ∘ fun _ => (∅ : FactSet Nat))).1 1 = ∅ := by
    decide
  have third : real.1 2 = ∅ := untouched 2 (by decide)
  refine ⟨answers.trans (by decide), fun a => ?_, ?_, ?_, ?_, third⟩
  · exact (members 0 a).trans (by rw [first, Finset.mem_singleton])
  · exact (sizes 0).trans (by rw [first, Finset.card_singleton])
  · exact mt (same 0 1).1 (by rw [first, second]; decide)
  · refine Eq.trans ((same 1 2).2 ?_) third
    decide

end FlowFacts.FactSet

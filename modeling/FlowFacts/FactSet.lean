import Std.Data.ExtTreeSet
import FlowFacts.Change
import FlowFacts.Text.Structural

/-!
# Sets of facts

`FactSet α` is a finite set of elements in ascending order, as an extensional search tree: two sets
with the same elements are equal, whatever their histories. Beside the set algebra of the tree
(`∪`, `∩`, `\`, `∈`) this module has

* the order by inclusion, `s ≤ t`;
* `join`, `meet`, `subtract`, `assign`, which combine two sets and report whether the first changed;
* `add` and `remove`, which report whether the element's membership changed.
-/

namespace FlowFacts

/-- A finite set of elements, listed in ascending order. -/
abbrev FactSet (α : Type) [Ord α] := Std.ExtTreeSet α

namespace FactSet

variable {α : Type} [Ord α] [Std.TransOrd α]

/-- Inclusion. -/
instance : LE (FactSet α) := ⟨fun s t => ∀ a ∈ s, a ∈ t⟩

theorem le_def {s t : FactSet α} : s ≤ t ↔ ∀ a ∈ s, a ∈ t := Iff.rfl

instance [Std.LawfulEqOrd α] : DecidableLE (FactSet α) := fun s t =>
  decidable_of_iff (∀ a ∈ s.toList, a ∈ t) (by simp [le_def])

/-- The set with `a` put in, and whether `a` was missing. -/
def add (s : FactSet α) (a : α) : FactSet α × Bool := (s.insert a, !s.contains a)

/-- The set with `a` taken out, and whether `a` was there. -/
def remove (s : FactSet α) (a : α) : FactSet α × Bool := (s.erase a, s.contains a)

/-- The set that results from changing `s` into `t` by an operation that only adds or only removes
elements. Such an operation changed `s` exactly if it changed the number of elements. -/
def resized (s t : FactSet α) : FactSet α × Change := (t, .ofBool (t.size != s.size))

/-- The elements of both sets together. -/
def join (s t : FactSet α) : FactSet α × Change := s.resized (s ∪ t)

/-- The elements of `s` that are in `t`. -/
def meet (s t : FactSet α) : FactSet α × Change := s.resized (s ∩ t)

/-- The elements of `s` that are not in `t`. -/
def subtract (s t : FactSet α) : FactSet α × Change := s.resized (s \ t)

/-- The elements of `t` in place of those of `s`. -/
def assign [Std.LawfulEqOrd α] (s t : FactSet α) : FactSet α × Change :=
  if s = t then (s, .unchanged) else (t, .changed)

@[simp] theorem join_fst (s t : FactSet α) : (s.join t).1 = s ∪ t := rfl

@[simp] theorem meet_fst (s t : FactSet α) : (s.meet t).1 = s ∩ t := rfl

@[simp] theorem subtract_fst (s t : FactSet α) : (s.subtract t).1 = s \ t := rfl

@[simp] theorem assign_fst [Std.LawfulEqOrd α] (s t : FactSet α) : (s.assign t).1 = t := by
  unfold assign
  split <;> simp_all

instance [Inspect α] : Inspect (FactSet α) where
  inspect s := Text.setOf (s.toList.map inspect)

instance [ToString α] : ToString (FactSet α) where
  toString s := Text.setOf (s.toList.map toString)

end FactSet

end FlowFacts

/-!
# Change flags

An operation on facts says whether it changed the fact it works on. `Change` is that report, and
`|||` joins the reports of several operations.
-/

namespace FlowFacts

/-- Whether an operation changed the state it was applied to. -/
inductive Change where
  | unchanged
  | changed
deriving DecidableEq, Inhabited

namespace Change

/-- The report of an operation whose effect is known. -/
def ofBool : Bool → Change
  | true => changed
  | false => unchanged

def isChanged : Change → Bool
  | changed => true
  | unchanged => false

def isUnchanged (c : Change) : Bool := !c.isChanged

/-- Some part changed if one of the two did. -/
def or : Change → Change → Change
  | changed, _ => changed
  | unchanged, c => c

instance : OrOp Change := ⟨or⟩

@[simp] theorem isChanged_ofBool (b : Bool) : (ofBool b).isChanged = b := by cases b <;> rfl

@[simp] theorem ofBool_eq_changed_iff {b : Bool} : ofBool b = changed ↔ b = true := by
  cases b <;> decide

@[simp] theorem ofBool_eq_unchanged_iff {b : Bool} : ofBool b = unchanged ↔ b = false := by
  cases b <;> decide

@[simp] theorem ofBool_isChanged (c : Change) : ofBool c.isChanged = c := by cases c <;> rfl

@[simp] theorem isChanged_or (c d : Change) :
    (c ||| d).isChanged = (c.isChanged || d.isChanged) := by
  cases c <;> rfl

@[simp] theorem or_eq_unchanged_iff {c d : Change} :
    c ||| d = unchanged ↔ c = unchanged ∧ d = unchanged := by
  cases c <;> cases d <;> decide

end Change

end FlowFacts

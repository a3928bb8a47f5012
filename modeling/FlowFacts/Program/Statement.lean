import Std.Data.ExtTreeSet
import FlowFacts.Text.Structural

/-!
# Statements

Three-address statements over numbered variables, the operands they read and the variable they
write. `DefUse` is the view of a label that analyses of variables need: what it uses and what it
defines.
-/

namespace FlowFacts

/-- A local variable of a program. -/
structure Var where
  index : Nat
deriving DecidableEq

namespace Var

/-- Variables are ordered by number. -/
instance : Ord Var := ⟨compareOn index⟩

instance : Std.TransOrd Var := inferInstanceAs (Std.TransCmp (compareOn index))

instance : Std.LawfulEqOrd Var where
  eq_of_compare {v w} h := by
    cases v
    cases w
    exact congrArg mk (Std.LawfulEqOrd.eq_of_compare h)

instance : ToString Var := ⟨fun v => "v" ++ toString v.index⟩

instance : Inspect Var := ⟨toString⟩

end Var

/-- What a statement reads: a variable or a constant. -/
inductive Operand where
  | var (v : Var)
  | const (value : Int)
deriving DecidableEq

namespace Operand

def var? : Operand → Option Var
  | var v => some v
  | const _ => none

instance : ToString Operand where
  toString
    | var v => toString v
    | const value => toString value

instance : Inspect Operand where
  inspect
    | var v => Text.applied "Var" [inspect v]
    | const value => Text.applied "Const" [inspect value]

end Operand

/-- A binary operator. -/
inductive Operator where
  | add
  | sub
  | mul
  | lt
  | eq
deriving DecidableEq

namespace Operator

instance : ToString Operator where
  toString
    | add => "+"
    | sub => "-"
    | mul => "*"
    | lt => "<"
    | eq => "=="

instance : Inspect Operator where
  inspect
    | add => "Add"
    | sub => "Sub"
    | mul => "Mul"
    | lt => "Lt"
    | eq => "Eq"

end Operator

/-- A three-address statement. Where control goes from it is a matter of the graph it stands in. -/
inductive Statement where
  | nop
  | assign (dest : Var) (value : Operand)
  | binary (dest : Var) (op : Operator) (lhs rhs : Operand)
  | branch (cond : Operand)
  | invoke (dest : Option Var) (callee : String) (args : List Operand)
  | return (value : Option Operand)
deriving DecidableEq

namespace Statement

/-- What the statement reads, in order. -/
def operands : Statement → List Operand
  | nop => []
  | assign _ value => [value]
  | binary _ _ lhs rhs => [lhs, rhs]
  | branch cond => [cond]
  | invoke _ _ args => args
  | .return value => value.toList

/-- The variable that the statement writes. -/
def dest? : Statement → Option Var
  | assign dest _ | binary dest _ _ _ => some dest
  | invoke dest _ _ => dest
  | nop | branch _ | .return _ => none

instance : ToString Statement where
  toString
    | nop => "nop"
    | assign dest value => toString dest ++ " = " ++ toString value
    | binary dest op lhs rhs =>
      toString dest ++ " = " ++ toString lhs ++ " " ++ toString op ++ " " ++ toString rhs
    | branch cond => "if " ++ toString cond
    | invoke dest callee args =>
      (dest.elim "" fun v => toString v ++ " = ") ++ Text.applied callee (args.map toString)
    | .return value => "return" ++ value.elim "" fun operand => " " ++ toString operand

instance : Inspect Statement where
  inspect
    | nop => "Nop"
    | assign dest value => Text.fields "Assign" [("dest", inspect dest), ("value", inspect value)]
    | binary dest op lhs rhs =>
      Text.fields "Binary"
        [("dest", inspect dest), ("op", inspect op), ("lhs", inspect lhs), ("rhs", inspect rhs)]
    | branch cond => Text.fields "If" [("cond", inspect cond)]
    | invoke dest callee args =>
      Text.fields "Invoke"
        [("dest", inspect dest), ("callee", inspect callee), ("args", inspect args)]
    | .return value => Text.applied "Return" [inspect value]

end Statement

/-- Labels that use variables and define at most one. -/
class DefUse (ℓ : Type) (V : outParam Type) where
  /-- The variables read, in order; one that is read twice is listed twice. -/
  uses : ℓ → List V
  /-- The variable written. -/
  defined? : ℓ → Option V

/-- A statement uses the variables among its operands and defines its destination. -/
instance : DefUse Statement Var where
  uses s := s.operands.filterMap Operand.var?
  defined? s := s.dest?

end FlowFacts

import FlowFacts.LiveVariables

/-!
# A catalog of analyses

A `Catalog` holds analyses by kind, so that one can be chosen by an identifier and run. The analyses
in it may compute facts of different types: `FactType` packs a type of facts with what a solver asks
of it, a family `κ → FactType` names the types in use by codes, and a result comes with the code of
its type. `Catalog.runAs` asks for a result of a given type.
-/

namespace FlowFacts

/-- The kinds of analyses. -/
inductive AnalysisKind where
  | liveVariables
deriving DecidableEq

/-- A text that identifies no kind of analysis. -/
structure UnknownKind where
  text : String

def UnknownKind.message (e : UnknownKind) : String := "unknown analysis '" ++ e.text ++ "'"

namespace AnalysisKind

/-- All kinds, in the order in which a catalog lists them. -/
def all : List AnalysisKind := [liveVariables]

/-- The identifier of a kind. -/
def id : AnalysisKind → String
  | liveVariables => "livevar"

instance : ToString AnalysisKind := ⟨id⟩

instance : Inspect AnalysisKind where
  inspect
    | liveVariables => "LiveVariables"

/-- The kind that a text identifies. -/
def parse (text : String) : Except UnknownKind AnalysisKind :=
  match all.find? (·.id = text) with
  | some kind => .ok kind
  | none => .error ⟨text⟩

end AnalysisKind

/-- A type of facts, with the tests that a solver makes on them. -/
structure FactType where
  Fact : Type
  [le : LE Fact]
  [decidableLE : DecidableLE Fact]
  [decidableEq : DecidableEq Fact]
  [text : Inspect Fact]

attribute [instance] FactType.le FactType.decidableLE FactType.decidableEq FactType.text

/-- Sets of elements of a type, ordered by inclusion. -/
def FactType.sets (α : Type) [Ord α] [Std.TransOrd α] [Std.LawfulEqOrd α] [Inspect α] : FactType :=
  ⟨FactSet α⟩

/-- Why a catalog has no result. -/
inductive CatalogError (ν : Type) where
  /-- There is no analysis of the kind. -/
  | unregistered (kind : AnalysisKind)
  /-- The analysis of the kind computes facts of another type. -/
  | typeMismatch (kind : AnalysisKind)
  /-- The analysis fails. -/
  | failed (failure : Failure ν)

namespace CatalogError

variable {ν : Type}

def message [Inspect ν] : CatalogError ν → String
  | unregistered kind => "analysis '" ++ kind.id ++ "' has not been registered"
  | typeMismatch kind => "the results of analysis '" ++ kind.id ++ "' are not of the requested type"
  | failed failure => failure.message

def help? : CatalogError ν → Option String
  | unregistered _ => none
  | typeMismatch _ => "the fact type of the requested analysis must match the registered one"
  | failed failure => failure.help?

end CatalogError

/-- An analysis for labeled graphs, with the code of its type of facts. -/
structure Registration (ν ℓ : Type) {κ : Type} (type : κ → FactType) where
  code : κ
  analysis : LabeledGraph ν ℓ → Analysis ν (type code).Fact

/-- A solution with the code of its type of facts. -/
structure TypedSolution (ν : Type) {κ : Type} (type : κ → FactType) where
  code : κ
  solution : Solution ν (type code).Fact

/-- The solution, if its facts are of the type of a given code. Codes stand for types of facts one
to one: what is asked is whether the two types are the same, and types cannot be compared
themselves. -/
def TypedSolution.as? {ν κ : Type} {type : κ → FactType} [DecidableEq κ] (s : TypedSolution ν type)
    (code : κ) : Option (Solution ν (type code).Fact) :=
  if same : s.code = code then some (same ▸ s.solution) else none

/-- Analyses for labeled graphs, by kind. -/
structure Catalog (ν ℓ : Type) {κ : Type} (type : κ → FactType) where
  registered? : AnalysisKind → Option (Registration ν ℓ type)

/-- A value and the records that were logged for it. -/
structure Logged (α : Type) where
  records : List Record
  value : α

/-- The target of the records of a catalog. -/
def catalogTarget : String := "dataflow-registry"

namespace Catalog

variable {ν ℓ κ : Type} {type : κ → FactType}

/-- The catalog without analyses. -/
def empty : Catalog ν ℓ type := ⟨fun _ => none⟩

instance : EmptyCollection (Catalog ν ℓ type) := ⟨empty⟩

def contains (c : Catalog ν ℓ type) (kind : AnalysisKind) : Bool := (c.registered? kind).isSome

/-- The kinds of the analyses in the catalog, in a fixed order. -/
def kinds (c : Catalog ν ℓ type) : List AnalysisKind := AnalysisKind.all.filter c.contains

/-- The catalog with an analysis of a kind, in place of an earlier one of that kind. -/
def register (c : Catalog ν ℓ type) (kind : AnalysisKind) (r : Registration ν ℓ type) :
    Logged (Catalog ν ℓ type) where
  records :=
    if c.contains kind then
      [⟨.debug, catalogTarget, "replaced registration of '" ++ kind.id ++ "'"⟩]
    else []
  value := ⟨fun k => if k = kind then some r else c.registered? k⟩

/-- The catalog with the analysis of live variables, whose type of facts has the given code. -/
def builtin {V : Type} [Ord V] [Std.TransOrd V] [Std.LawfulEqOrd V] [Inspect V] [Inspect ν]
    [DefUse ℓ V] (code : κ) (sets : type code = .sets V) : Catalog ν ℓ type :=
  (register ∅ .liveVariables ⟨code, sets ▸ liveVariables⟩).value

variable [DecidableEq ν] [Inspect ν]

/-- Runs the analysis of a kind over a graph. -/
def run (c : Catalog ν ℓ type) (kind : AnalysisKind) (solver : Solver) (g : LabeledGraph ν ℓ) :
    Solver × Logged (Except (CatalogError ν) (TypedSolution ν type)) :=
  match c.registered? kind with
  | none => (solver, ⟨[], .error (.unregistered kind)⟩)
  | some r =>
    let analysis := r.analysis g
    let (solver, run) := solver.solve analysis g.toGraph
    let running : Record := ⟨.debug, catalogTarget, "running '" ++ kind.id ++ "'"⟩
    (solver, ⟨running :: run.journal.flatMap analysis.records,
      (run.outcome.map (⟨r.code, ·⟩)).mapError .failed⟩)

/-- Runs the analysis of a kind over a graph, for facts of the type of a given code. That the facts
are of another type is found out after the run. -/
def runAs [DecidableEq κ] (c : Catalog ν ℓ type) (kind : AnalysisKind) (code : κ) (solver : Solver)
    (g : LabeledGraph ν ℓ) :
    Solver × Logged (Except (CatalogError ν) (Solution ν (type code).Fact)) :=
  let (solver, logged) := c.run kind solver g
  (solver, ⟨logged.records, logged.value.bind fun s =>
    match s.as? code with
    | some solution => .ok solution
    | none => .error (.typeMismatch kind)⟩)

end Catalog

end FlowFacts

import ClassLang.Typed

/-!
The working state of the checker, and the errors it can report.
-/

namespace ClassLang

namespace Check

/-- A type argument that has to satisfy a bound, and the place that asks for
it. -/
structure Duty where
  pos : Pos
  ty : Ty
  bound : String

/-- The state of one constant: being folded, or folded with the value found. -/
inductive Folding where
  | busy
  | done (result : Option Typed.Const)

/-- What changes while a unit is checked: the errors found, the bounds still to
be checked, and the constants folded so far. -/
structure Session where
  errors : Collector
  duties : List Duty := []
  consts : List (String × Folding) := []

end Check

/-- A step of the checker. -/
abbrev Check (α : Type) := StateM Check.Session α

namespace Check

/-- Reports an error. -/
def report (kind : ErrorKind) (pos : Pos) (message : String) : Check Unit :=
  modify fun s => { s with errors := s.errors.add ⟨kind, pos, message⟩ }

/-- Reports an error and gives no result. -/
def fail {α : Type} (kind : ErrorKind) (pos : Pos) (message : String) : Check (Option α) := do
  report kind pos message
  return none

/-- Reports errors found by the table. -/
def reportAll (ds : List Diagnostic) : Check Unit :=
  modify fun s => { s with errors := ds.foldl Collector.add s.errors }

/-- Whether an error was reported. -/
def failed : Check Bool := return (← get).errors.failed

/-- Whether an error was dropped because there were too many. -/
def full : Check Bool := return (← get).errors.full

/-- What a part of the unit is checked against: the table, the signatures of the
functions, and the scopes around the part, innermost first. While members are
collected, bounds are not checked but put off. -/
structure Env where
  table : Table
  funcs : List (String × Signature) := []
  scopes : List (Scope Symbol)
  collecting : Bool := false

namespace Env

/-- What a name stands for. -/
def lookup (env : Env) (name : String) : Option Symbol := Scope.lookup env.scopes name

/-- An environment one scope further in. -/
def enter (env : Env) (s : Scope Symbol) : Env := { env with scopes := s :: env.scopes }

end Env

end Check

end ClassLang

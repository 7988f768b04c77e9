import ClassLang.Source.Position

/-!
Compile errors: their kinds, and a collector that keeps at most a given number
of them.
-/

namespace ClassLang

/-- The kind of a compile error. A code of no kind is kept as it is. -/
inductive ErrorKind where
  | invalid
  | syntactic
  | duplicateDeclaration
  | unknownType
  | unknownField
  | unknownMethod
  | cyclicInheritance
  | typeMismatch
  | unsatisfiedBound
  | incompleteInitializer
  | duplicateInitializerField
  | unknownInitializerField
  | invalidUpcast
  | unlisted (code : Int)
  deriving DecidableEq, Repr, Inhabited

namespace ErrorKind

/-- Every kind, in the order of their codes. -/
def all : List ErrorKind :=
  [.invalid, .syntactic, .duplicateDeclaration, .unknownType, .unknownField, .unknownMethod,
   .cyclicInheritance, .typeMismatch, .unsatisfiedBound, .incompleteInitializer,
   .duplicateInitializerField, .unknownInitializerField, .invalidUpcast]

/-- The name of a kind. -/
def text : ErrorKind → String
  | .invalid => "Invalid"
  | .syntactic => "Syntax"
  | .duplicateDeclaration => "DuplicateDeclaration"
  | .unknownType => "UnknownType"
  | .unknownField => "UnknownField"
  | .unknownMethod => "UnknownMethod"
  | .cyclicInheritance => "CyclicInheritance"
  | .typeMismatch => "TypeMismatch"
  | .unsatisfiedBound => "UnsatisfiedBound"
  | .incompleteInitializer => "IncompleteInitializer"
  | .duplicateInitializerField => "DuplicateInitializerField"
  | .unknownInitializerField => "UnknownInitializerField"
  | .invalidUpcast => "InvalidUpcast"
  | .unlisted code => s!"Kind({code})"

/-- The kind with code `code`. -/
def ofCode (code : Int) : ErrorKind :=
  if code < 0 then .unlisted code else (all[code.toNat]?).getD (.unlisted code)

end ErrorKind

/-- One compile error with its place. -/
structure Diagnostic where
  kind : ErrorKind
  pos : Pos
  message : String
  deriving DecidableEq, Repr, Inhabited

namespace Diagnostic

/-- An error as one line, without its kind. -/
def text (d : Diagnostic) : String := d.pos.text ++ ": " ++ d.message

/-- Errors in the order of their places; errors of one place keep their order. -/
def sort (ds : List Diagnostic) : List Diagnostic :=
  ds.mergeSort fun a b => a.pos.le b.pos

/-- The kind of the first error, if there is one. -/
def kindOf (ds : List Diagnostic) : ErrorKind :=
  match ds with
  | [] => .invalid
  | d :: _ => d.kind

end Diagnostic

/-- Errors collected up to a limit. The errors are kept with the last one
first; `full` tells whether one was dropped. -/
structure Collector where
  limit : Option Nat
  kept : List Diagnostic := []
  full : Bool := false
  deriving Repr, Inhabited

namespace Collector

/-- The number of errors kept. -/
def size (c : Collector) : Nat := c.kept.length

/-- Whether the limit has been reached. -/
def atLimit (c : Collector) : Bool :=
  match c.limit with
  | some n => n ≤ c.size
  | none => false

/-- Keeps an error unless the limit has been reached. -/
def add (c : Collector) (d : Diagnostic) : Collector :=
  if c.atLimit then { c with full := true } else { c with kept := d :: c.kept }

/-- The errors in the order in which they were found. -/
def found (c : Collector) : List Diagnostic := c.kept.reverse

/-- The errors in the order of their places. -/
def sorted (c : Collector) : List Diagnostic := Diagnostic.sort c.found

/-- Whether an error was found. -/
def failed (c : Collector) : Bool := !c.kept.isEmpty

end Collector

end ClassLang

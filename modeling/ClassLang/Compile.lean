import ClassLang.Check.Unit
import ClassLang.Graph.Lower
import ClassLang.Graph.Verify
import ClassLang.Tree.Parse

/-!
Compilation of one unit in phases: its text is parsed, checked, laid out and
turned into graphs. A phase that fails stops the compilation.
-/

namespace ClassLang

/-- A phase of compilation. -/
inductive Phase where
  | parse | check | layout | graph
  deriving DecidableEq, Repr, Inhabited

namespace Phase

/-- Every phase in order. -/
def all : List Phase := [.parse, .check, .layout, .graph]

/-- The word for a phase. -/
def text : Phase → String
  | .parse => "parse"
  | .check => "check"
  | .layout => "layout"
  | .graph => "ir"

/-- The phase with code `code`. -/
def ofCode? (code : Int) : Option Phase :=
  if code < 0 then none else all[code.toNat]?

/-- The word for the phase with code `code`, also for codes of no phase. -/
def textOfCode (code : Int) : String := ((ofCode? code).map text).getD "?"

end Phase

/-- How a unit is compiled. Without a last phase all phases run, and without a
limit all errors are kept. -/
structure CompileOptions where
  last : Option Phase := none
  errorLimit : Option Nat := none
  verify : Bool := true
  cancelled : Bool := false

/-- Why a compilation fails. -/
inductive CompileError where
  | invalid (errors : List Diagnostic)
  | cancelled
  | bounds (faults : List BoundFault)
  | graphs (messages : List String)
  /-- The compilation itself breaks off. -/
  | crash (fault : Graph.Fault)

namespace CompileError

/-- The wording of a failure. -/
def message : CompileError → String
  | .invalid errors => "; ".intercalate (errors.map (·.text))
  | .cancelled => "context canceled"
  | .bounds faults => "; ".intercalate (faults.map (·.message))
  | .graphs messages => "; ".intercalate messages
  | .crash fault => fault.message?.getD ""

/-- The compile errors of a failure, in the order of their places. -/
def errors : CompileError → List Diagnostic
  | .invalid errors => errors
  | _ => []

end CompileError

/-- What the phases have made so far. -/
structure Artifacts where
  file : File
  checkStarted : Bool := false
  typed : Option Typed.File := none
  layouts : Option Layouts := none
  program : Option Graph.Program := none

namespace Parsed

/-- The syntax errors of a unit as compile errors, in the order of their places. -/
def diagnostics (p : Parsed) : List Diagnostic :=
  Diagnostic.sort (p.reports.map fun e => ⟨.syntactic, e.pos, e.message⟩)

end Parsed

/-- Turns a laid out unit into graphs. -/
def lowerPhase (o : CompileOptions) (a : Artifacts) (typed : Typed.File) (ls : Layouts) :
    Artifacts × Option CompileError :=
  let program := Graph.Program.ofTyped typed ls
  let messages :=
    if o.verify then
      match program.violations with
      | .ok messages => messages
      | .error _ => []
    else []
  if let fault :: _ := Graph.Program.faults typed ls then (a, some (.crash fault))
  else if messages.isEmpty then ({ a with program := some program }, none)
  else (a, some (.graphs messages))

/-- Lays out a checked unit. -/
def layoutPhase (o : CompileOptions) (a : Artifacts) (typed : Typed.File) :
    Artifacts × Option CompileError :=
  let ls := Layouts.build typed.table
  let faults := if o.verify then ls.faults else []
  if !typed.table.isSealed then (a, some (.crash .unsealed))
  else
  let a := { a with layouts := some ls }
  if !faults.isEmpty then (a, some (.bounds faults))
  else if o.last = some .layout then (a, none)
  else lowerPhase o a typed ls

/-- Checks a parsed unit. -/
def checkPhase (o : CompileOptions) (file : File) : Artifacts × Option CompileError :=
  let a : Artifacts := { file, checkStarted := true }
  match file.check o.errorLimit with
  | .error errors => (a, some (.invalid (Diagnostic.sort errors)))
  | .ok typed =>
    let a := { a with typed := some typed }
    if o.last = some .check then (a, none) else layoutPhase o a typed

/-- Compiles the unit `name` from its text. -/
def compile (o : CompileOptions) (name : String) (text : List UInt8) :
    Artifacts × Option CompileError :=
  let p := parseFile name text
  let a : Artifacts := { file := p.file }
  if !p.reports.isEmpty then (a, some (.invalid p.diagnostics))
  else if o.last = some .parse then (a, none)
  else if o.cancelled then (a, some .cancelled)
  else checkPhase o p.file

end ClassLang

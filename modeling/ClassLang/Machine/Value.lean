import ClassLang.Graph
import ClassLang.Number.Shortest

/-!
Values at run time, the objects that live in the heap, and the ways in which a
run can fail.
-/

namespace ClassLang.Machine

/-- A value. An object is given by its place in the heap; a dispatch table and a
method only occur in the middle of a call. -/
inductive Value where
  | nil
  | int (n : Int64)
  | float (x : Double)
  | bool (b : Bool)
  | str (s : String)
  | obj (ref : Nat)
  | table (l : ClassLayout)
  | method (ref : FuncRef)
  deriving Repr, Inhabited

namespace Value

/-- The name of the kind of a value. -/
def kindText : Value → String
  | .nil => "<nil>"
  | .int _ => "int64"
  | .float _ => "float64"
  | .bool _ => "bool"
  | .str _ => "string"
  | .obj _ => "*interp.Object"
  | .table _ => "*layout.Class"
  | .method _ => "*types.FuncObj"

/-- Whether two values are the same. Objects are the same if they have the same
place. -/
def same : Value → Value → Bool
  | .nil, .nil => true
  | .int a, .int b => a == b
  | .float a, .float b => a.equal b
  | .bool a, .bool b => a == b
  | .str a, .str b => a == b
  | .obj a, .obj b => a == b
  | .table a, .table b => a.name == b.name
  | .method a, .method b => a == b
  | _, _ => false

end Value

/-- An object with its own layout and, once it is complete, the layout that leads
to its methods. -/
structure Object where
  layout : ClassLayout
  dispatch : Option ClassLayout := none
  fields : Array Value := #[]
  deriving Repr, Inhabited

namespace Object

/-- An object as messages show it. -/
def text (o : Object) : String := s!"<{o.layout.name} object>"

end Object

/-- What can go wrong in a run of a program that obeys the rules. -/
inductive Cause where
  | divideByZero
  | missingArgument (name : String)
  | noDispatch (object : String)
  | noMethod (cls name : String) (slot : Int64)
  | strangeEdge (block origin : String)
  | tooDeep (limit : Nat)
  | noHost
  | noBody
  deriving DecidableEq, Repr

namespace Cause

/-- The wording of a cause. -/
def message : Cause → String
  | .divideByZero => "integer divide by zero"
  | .missingArgument name => s!"missing argument {name}"
  | .noDispatch object => s!"{object} has no dispatch table"
  | .noMethod cls name slot => s!"class {cls} has no method {name} at slot {slot.toInt}"
  | .strangeEdge block origin => s!"phi in {block} reached from {origin}"
  | .tooDeep limit => s!"call depth limit {limit} exceeded"
  | .noHost => "no host implementation for extern"
  | .noBody => "function has no body"

end Cause

/-- How a graph that breaks the rules stops the machine itself. A fault has no
wording: an operand, a slot or a successor is missing, or a value has the wrong
kind. -/
inductive Crash where
  | notObject (op : Graph.Op) (operand : Nat) (kind : String)
  | unhandled (op : Graph.Op)
  | unhandledPair (op : Graph.Op)
  | strangeBlock (block kind : String)
  | fault
  deriving DecidableEq, Repr

namespace Crash

/-- The wording of a crash. -/
def message? : Crash → Option String
  | .notObject op i kind => some s!"interp: {op.text} operand {i} is {kind}, not an object"
  | .unhandled op => some s!"interp.exec: unhandled op {op.text}"
  | .unhandledPair op => some s!"interp.binary: unhandled op {op.text}"
  | .strangeBlock block kind => some s!"interp.run: block {block} has kind {kind}"
  | .fault => none

end Crash

/-- Why a run ends without a value. -/
inductive Failure where
  | runtime (func : String) (pos : Pos) (cause : Cause)
  | host (text : String)
  | cancelled
  | noMain
  | crash (c : Crash)
  deriving DecidableEq, Repr

namespace Failure

/-- The wording of a failure. Some crashes have none. -/
def message? : Failure → Option String
  | .runtime func pos cause =>
    some (if pos.isValid then s!"{pos.text}: {func}: {cause.message}"
      else s!"{func}: {cause.message}")
  | .host text => some text
  | .cancelled => some "context canceled"
  | .noMain => some "interp: program has no main function"
  | .crash c => c.message?

end Failure

end ClassLang.Machine

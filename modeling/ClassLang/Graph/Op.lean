/-!
The operations of the instructions in a control-flow graph.
-/

namespace ClassLang.Graph

/-- An operation. `unlisted` stands for any code that is no operation. -/
inductive Op where
  | invalid
  | const64 | constFloat | constBool | constString
  | add64 | sub64 | mul64 | div64 | mod64 | neg64
  | addF64 | subF64 | mulF64 | divF64 | negF64
  | eq64 | neq64 | lt64 | leq64 | gt64 | geq64
  | eqF64 | neqF64 | ltF64 | leqF64 | gtF64 | geqF64
  | eqStr | neqStr
  | not | phi
  | arg | alloca | load | store
  | alloc | loadField | storeField | setDispatch
  | callDirect | dispatchTable | dispatchEntry | callIndirect
  | unlisted
  deriving DecidableEq, Repr, Inhabited

namespace Op

/-- Every operation, in the order of their codes. -/
def all : List Op :=
  [.invalid, .const64, .constFloat, .constBool, .constString,
   .add64, .sub64, .mul64, .div64, .mod64, .neg64,
   .addF64, .subF64, .mulF64, .divF64, .negF64,
   .eq64, .neq64, .lt64, .leq64, .gt64, .geq64,
   .eqF64, .neqF64, .ltF64, .leqF64, .gtF64, .geqF64,
   .eqStr, .neqStr, .not, .phi,
   .arg, .alloca, .load, .store,
   .alloc, .loadField, .storeField, .setDispatch,
   .callDirect, .dispatchTable, .dispatchEntry, .callIndirect]

/-- The name of an operation. -/
def text : Op → String
  | .invalid => "Invalid"
  | .const64 => "Const64"
  | .constFloat => "ConstFloat"
  | .constBool => "ConstBool"
  | .constString => "ConstString"
  | .add64 => "Add64"
  | .sub64 => "Sub64"
  | .mul64 => "Mul64"
  | .div64 => "Div64"
  | .mod64 => "Mod64"
  | .neg64 => "Neg64"
  | .addF64 => "AddF64"
  | .subF64 => "SubF64"
  | .mulF64 => "MulF64"
  | .divF64 => "DivF64"
  | .negF64 => "NegF64"
  | .eq64 => "Eq64"
  | .neq64 => "Neq64"
  | .lt64 => "Lt64"
  | .leq64 => "Leq64"
  | .gt64 => "Gt64"
  | .geq64 => "Geq64"
  | .eqF64 => "EqF64"
  | .neqF64 => "NeqF64"
  | .ltF64 => "LtF64"
  | .leqF64 => "LeqF64"
  | .gtF64 => "GtF64"
  | .geqF64 => "GeqF64"
  | .eqStr => "EqStr"
  | .neqStr => "NeqStr"
  | .not => "Not"
  | .phi => "Phi"
  | .arg => "Arg"
  | .alloca => "Alloca"
  | .load => "Load"
  | .store => "Store"
  | .alloc => "Alloc"
  | .loadField => "LoadField"
  | .storeField => "StoreField"
  | .setDispatch => "SetDispatch"
  | .callDirect => "CallDirect"
  | .dispatchTable => "DispatchTable"
  | .dispatchEntry => "DispatchEntry"
  | .callIndirect => "CallIndirect"
  | .unlisted => "unknown"

/-- The operation with code `code`. -/
def ofCode (code : Int) : Op :=
  if code < 0 then .unlisted else (all[code.toNat]?).getD .unlisted

/-- The operation called `name`, which is invalid if there is none. -/
def ofName (name : String) : Op := (all.find? (·.text = name)).getD .invalid

/-- Whether an operation only computes a value. A division may fail and is left
out, as are the operations on slots and objects. -/
def isPure : Op → Bool
  | .invalid | .div64 | .mod64 | .alloca | .load | .store | .alloc | .loadField | .storeField
  | .setDispatch | .callDirect | .callIndirect | .unlisted => false
  | _ => true

/-- Whether an operation gives no value. -/
def isVoid : Op → Bool
  | .store | .storeField | .setDispatch => true
  | _ => false

/-- Whether an operation is a call. -/
def isCall : Op → Bool
  | .callDirect | .callIndirect => true
  | _ => false

/-- Whether the value of an operation has no type of the language. -/
def isUntyped : Op → Bool
  | .dispatchTable => true
  | _ => false

/-- Whether listings show the number of an instruction. -/
def showsNumber : Op → Bool
  | .const64 | .constBool | .arg | .loadField | .storeField | .dispatchEntry | .alloc => true
  | _ => false

end Op

end ClassLang.Graph

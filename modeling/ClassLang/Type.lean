import ClassLang.Source.Position

/-!
The types of the language. Classes are told apart by name, which a unit
declares only once; type parameters by the declaration that owns them and their
place in its list.
-/

namespace ClassLang

/-- A type parameter of the class or function `owner`, with the name of the
bound that its arguments satisfy. -/
structure TypeParam where
  owner : String
  index : Nat
  name : String
  bound : Option String
  deriving DecidableEq, Repr, Inhabited

namespace TypeParam

/-- A type parameter as a signature shows it. -/
def text (p : TypeParam) : String :=
  match p.bound with
  | some b => p.name ++ ": " ++ b
  | none => p.name

end TypeParam

/-- A type. `invalid` stands for a type that could not be determined, `void` for
the absence of a result, and `missing` for a place where no type was given. A
function has named parameters; no value of a unit has such a type. -/
inductive Ty where
  | invalid
  | int
  | float
  | bool
  | str
  | void
  | cls (name : String)
  | inst (name : String) (args : List Ty)
  | param (p : TypeParam)
  | func (tparams : List TypeParam) (params : List (String × Ty)) (result : Ty)
  | missing
  deriving Repr, Inhabited

/-- A parameter of a signature. -/
structure Param where
  name : String
  pos : Pos
  ty : Ty
  deriving Repr, Inhabited

/-- The signature of a function or method. The receiver is not part of it. -/
structure Signature where
  tparams : List TypeParam
  params : List Param
  result : Ty
  deriving Repr, Inhabited

namespace Ty

/-- Whether a type could not be determined. -/
def isInvalid : Ty → Bool
  | .invalid | .missing => true
  | _ => false

/-- Whether a type is that of a missing result. -/
def isVoid : Ty → Bool
  | .void => true
  | _ => false

/-- Whether no type was given. -/
def isMissing : Ty → Bool
  | .missing => true
  | _ => false

/-- A function as messages show it, given the texts of its parts. -/
def funcText (tparams : List TypeParam) (params : List String) (result : Option String) :
    String :=
  let own := if tparams.isEmpty then "" else "<" ++ ", ".intercalate (tparams.map (·.text)) ++ ">"
  "fun" ++ own ++ "(" ++ ", ".intercalate params ++ ")"
    ++ ((result.map fun r => ": " ++ r).getD "")

mutual

/-- A type as messages show it. -/
def text : Ty → String
  | .invalid => "invalid type"
  | .int => "int"
  | .float => "float"
  | .bool => "bool"
  | .str => "str"
  | .void => "void"
  | .cls name => name
  | .inst name args => name ++ "<" ++ ", ".intercalate (texts args) ++ ">"
  | .param p => p.name
  | .func tparams params result =>
    funcText tparams (paramTexts params) (if result.isVoid then none else some result.text)
  | .missing => "%!s(<nil>)"

/-- The texts of a list of types. -/
def texts : List Ty → List String
  | [] => []
  | t :: rest => t.text :: texts rest

/-- The texts of the parameters of a function. -/
def paramTexts : List (String × Ty) → List String
  | [] => []
  | (name, t) :: rest => (name ++ ": " ++ t.text) :: paramTexts rest

end

mutual

/-- Whether every part of a type was given. -/
def isComplete : Ty → Bool
  | .inst _ args => areComplete args
  | .func _ params result => paramsComplete params && result.isComplete
  | .missing => false
  | _ => true

/-- Whether every part of each type was given. -/
def areComplete : List Ty → Bool
  | [] => true
  | t :: rest => t.isComplete && areComplete rest

/-- Whether every part of each parameter was given. -/
def paramsComplete : List (String × Ty) → Bool
  | [] => true
  | (_, t) :: rest => t.isComplete && paramsComplete rest

end

/-- The text of a type of which every part was given. -/
def text? (t : Ty) : Option String := if t.isComplete then some t.text else none

mutual

/-- Whether two types are the same. The names of parameters and the type
parameters of a function do not matter. -/
def identical : Ty → Ty → Bool
  | .invalid, .invalid => true
  | .int, .int => true
  | .float, .float => true
  | .bool, .bool => true
  | .str, .str => true
  | .void, .void => true
  | .missing, .missing => true
  | .cls a, .cls b => a = b
  | .inst a as, .inst b bs => a = b && identicalAll as bs
  | .param p, .param q => p = q
  | .func _ ps r, .func _ qs t => identicalParams ps qs && r.identical t
  | _, _ => false

/-- Whether two lists hold the same types in the same order. -/
def identicalAll : List Ty → List Ty → Bool
  | [], [] => true
  | a :: as, b :: bs => a.identical b && identicalAll as bs
  | _, _ => false

/-- Whether two lists of parameters have the same types in the same order. -/
def identicalParams : List (String × Ty) → List (String × Ty) → Bool
  | [], [] => true
  | (_, a) :: as, (_, b) :: bs => a.identical b && identicalParams as bs
  | _, _ => false

end

instance : BEq Ty := ⟨identical⟩

/-- The argument for the parameter `p`, or `p` itself if it has none. -/
def substParam (ps : List TypeParam) (args : List Ty) (p : TypeParam) : Ty :=
  match (ps.zip args).find? (·.1 = p) with
  | some (_, t) => t
  | none => .param p

mutual

/-- Replaces the type parameters `ps` by `args`, all at once. A function stays as
it is. -/
def subst (ps : List TypeParam) (args : List Ty) : Ty → Ty
  | .param p => substParam ps args p
  | .inst name targs => .inst name (substAll ps args targs)
  | t => t

/-- Replaces type parameters in a list of types. -/
def substAll (ps : List TypeParam) (args : List Ty) : List Ty → List Ty
  | [] => []
  | t :: rest => t.subst ps args :: substAll ps args rest

end

/-- The class of a class type or of an instance of a generic class. -/
def className? : Ty → Option String
  | .cls name => some name
  | .inst name _ => some name
  | _ => none

/-- Whether the values of a type are references to objects. A type parameter
always stands for a class. -/
def isReference : Ty → Bool
  | .cls _ | .inst .. | .param _ => true
  | _ => false

/-- Whether a type is `bool`. -/
def isBool : Ty → Bool
  | .bool => true
  | _ => false

/-- Whether a type is `int`. -/
def isInt : Ty → Bool
  | .int => true
  | _ => false

/-- Whether a type is `float`. -/
def isFloat : Ty → Bool
  | .float => true
  | _ => false

/-- Whether a type is `str`. -/
def isStr : Ty → Bool
  | .str => true
  | _ => false

/-- Whether a type has arithmetic. -/
def isNumeric (t : Ty) : Bool := t.isInt || t.isFloat

/-- Whether a type is one of the four basic types that have values. -/
def isBasic (t : Ty) : Bool := t.isNumeric || t.isBool || t.isStr

/-- The properties of a basic type as a set of bits: integers, floats, truth
values, texts. -/
def traits : Ty → Nat
  | .int => 1
  | .float => 2
  | .bool => 4
  | .str => 8
  | _ => 0

/-- Whether a basic type has one of the properties in `mask`; the empty mask
admits every basic type. -/
def hasTrait (t : Ty) (mask : Nat) : Bool :=
  t.isBasic && (mask = 0 || t.traits &&& mask ≠ 0)

end Ty

namespace Signature

/-- The type of functions with a given signature. -/
def ty (s : Signature) : Ty :=
  .func s.tparams (s.params.map fun p => (p.name, p.ty)) s.result

/-- The signature of a type of functions. -/
def ofTy? : Ty → Option Signature
  | .func tparams params result =>
    some ⟨tparams, params.map fun (name, t) => ⟨name, Pos.none, t⟩, result⟩
  | _ => none

/-- A signature as messages show it. -/
def text (s : Signature) : String := s.ty.text

/-- The types of the parameters. -/
def paramTypes (s : Signature) : List Ty := s.params.map (·.ty)

/-- Whether two signatures have the same parameter types and the same result.
The names of the parameters do not matter. -/
def identical (s t : Signature) : Bool :=
  Ty.identicalAll s.paramTypes t.paramTypes && s.result.identical t.result

/-- Replaces type parameters in a signature, which has none of its own after. A
result that is not given is none. -/
def subst (ps : List TypeParam) (args : List Ty) (s : Signature) : Signature :=
  if ps.isEmpty then s
  else
    let result := s.result.subst ps args
    { tparams := []
      params := s.params.map fun p => { p with ty := p.ty.subst ps args }
      result := if result.isMissing then .void else result }

/-- The signature of a function without parameters and result. -/
def nullary : Signature := ⟨[], [], .void⟩

end Signature

end ClassLang

import ClassLang.Scope
import ClassLang.Tree
import ClassLang.Type

/-!
What a name can stand for.
-/

namespace ClassLang

/-- The kind of a variable of a function. -/
inductive VarKind where
  | localVar | param | recv
  deriving DecidableEq, Repr, Inhabited

/-- A variable of a function: a local, a parameter or the receiver. Two
variables of one unit differ in the place where they are declared. -/
structure Var where
  name : String
  pos : Pos
  kind : VarKind
  ty : Ty
  deriving Repr, Inhabited

/-- A field, declared by the class `owner` as number `index` of its own. -/
structure Field where
  name : String
  pos : Pos
  ty : Ty
  owner : String
  index : Nat
  deriving Repr, Inhabited

/-- A method of the class or bound `owner`. -/
structure Method where
  name : String
  pos : Pos
  owner : String
  sig : Signature
  deriving Repr, Inhabited

/-- A function or method, told apart by its name and that of its class. -/
inductive FuncRef where
  | func (name : String)
  | method (cls name : String)
  deriving DecidableEq, Repr, Inhabited

namespace FuncRef

/-- The name of a function; that of a method starts with its class. -/
def text : FuncRef → String
  | .func name => name
  | .method cls name => cls ++ "." ++ name

end FuncRef

namespace Method

/-- The reference to a method. -/
def ref (m : Method) : FuncRef := .method m.owner m.name

/-- The name of a method with that of its class or bound. -/
def fullName (m : Method) : String := m.ref.text

end Method

namespace Field

/-- The name of a field with that of its class. -/
def fullName (f : Field) : String := f.owner ++ "." ++ f.name

end Field

/-- What a name stands for. -/
inductive Symbol where
  | basic (t : Ty)
  | truth (b : Bool)
  | cls (id : Ident)
  | bound (id : Ident)
  | func (id : Ident) (host : Bool)
  | const (id : Ident)
  | typeParam (p : TypeParam) (pos : Pos)
  | var (v : Var)
  | field (f : Field)
  | method (m : Method)
  | boundMethod (m : Method)
  deriving Repr, Inhabited

namespace Symbol

/-- The word for the kind of a symbol. -/
def kind : Symbol → String
  | .basic _ | .cls _ | .typeParam .. => "type"
  | .truth _ | .const _ => "const"
  | .bound _ => "bound"
  | .func _ host => if host then "extern" else "func"
  | .var ⟨_, _, .localVar, _⟩ => "local"
  | .var ⟨_, _, .param, _⟩ => "param"
  | .var ⟨_, _, .recv, _⟩ => "recv"
  | .field _ => "field"
  | .method _ => "method"
  | .boundMethod _ => "boundmethod"

/-- Where a symbol is declared. -/
def pos : Symbol → Pos
  | .basic _ | .truth _ => Pos.none
  | .cls id | .bound id | .func id _ | .const id => id.pos
  | .typeParam _ pos => pos
  | .var v => v.pos
  | .field f => f.pos
  | .method m | .boundMethod m => m.pos

end Symbol

/-- The scope around every unit: the basic types and the truth values. -/
def predeclared : Scope Symbol :=
  { label := "universe"
    entries :=
      [("int", .basic .int), ("float", .basic .float), ("bool", .basic .bool),
       ("str", .basic .str), ("void", .basic .void), ("true", .truth true),
       ("false", .truth false)] }

end ClassLang

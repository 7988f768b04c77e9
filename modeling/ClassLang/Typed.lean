import ClassLang.Constant
import ClassLang.Table
import ClassLang.Tree.Text

/-!
The tree of a unit after checking. It has the shape of the syntax tree, and on
top of it every name knows what it stands for, every expression its type and
value, and every call how it finds its target.
-/

namespace ClassLang

/-- How a call finds its target. A direct call has a single one; a virtual call
and a call through a bound look it up in the receiver. -/
inductive CallKind where
  | direct | virtual | bound
  deriving DecidableEq, Repr, Inhabited

namespace CallKind

/-- The word for a kind of call. -/
def text : CallKind → String
  | .direct => "direct"
  | .virtual => "virtual"
  | .bound => "bound"

/-- Every kind, in the order of their codes. -/
def all : List CallKind := [.direct, .virtual, .bound]

/-- The word for the kind with code `code`, also for codes of no kind. -/
def textOfCode (code : Int) : String :=
  if code < 0 then "?"
  else
    match all[code.toNat]? with
    | some k => k.text
    | none => "?"

end CallKind

namespace Typed

/-- A type as it is written, with what its names stand for. -/
inductive TypeTerm where
  | name (id : Ident) (sym : Symbol) (ty : Ty)
  | apply (base : Ident) (sym : Symbol) (args : List TypeTerm) (ty : Ty)
  deriving Inhabited

/-- A checked expression. The value of an operation is known if those of its
operands are. -/
inductive Expr where
  | var (id : Ident) (v : Var)
  | const (id : Ident) (sym : Symbol) (ty : Ty) (value : Constant)
  | literal (pos : Pos) (kind : LitKind) (text : String) (ty : Ty) (value : Constant)
  | unary (pos : Pos) (op : UnaryOp) (x : Expr) (ty : Ty) (value : Option Constant)
  | binary (op : BinaryOp) (x y : Expr) (ty : Ty) (value : Option Constant)
  | call (fn : Ident) (sym : Symbol) (targs : List Ty) (sig : Signature) (args : List Expr)
  | invoke (x : Expr) (sel : Ident) (kind : CallKind) (method : Method) (sig : Signature)
      (args : List Expr)
  | field (x : Expr) (sel : Ident) (f : Field) (ty : Ty)
  | init (cls : Ident) (sym : Symbol) (ty : Ty) (fields : List Field)
      (elems : List (Ident × Expr))
  | paren (pos : Pos) (x : Expr)
  deriving Inhabited

namespace TypeTerm

/-- The type that a term stands for. -/
def ty : TypeTerm → Ty
  | .name _ _ ty => ty
  | .apply _ _ _ ty => ty

/-- Where a term starts. -/
def pos : TypeTerm → Pos
  | .name id _ _ => id.pos
  | .apply base _ _ _ => base.pos

mutual

/-- The type as it was written. -/
def erase : TypeTerm → TypeExpr
  | .name id _ _ => .name id
  | .apply base _ args _ => .apply base (eraseAll args)

/-- The types of a list as they were written. -/
def eraseAll : List TypeTerm → List TypeExpr
  | [] => []
  | t :: rest => t.erase :: eraseAll rest

end

end TypeTerm

namespace Expr

/-- The type of an expression. -/
def ty : Expr → Ty
  | .var _ v => v.ty
  | .const _ _ ty _ => ty
  | .literal _ _ _ ty _ => ty
  | .unary _ _ _ ty _ => ty
  | .binary _ _ _ ty _ => ty
  | .call _ _ _ sig _ => sig.result
  | .invoke _ _ _ _ sig _ => sig.result
  | .field _ _ _ ty => ty
  | .init _ _ ty _ _ => ty
  | .paren _ x => x.ty

/-- The value of an expression, if it is known. -/
def value? : Expr → Option Constant
  | .const _ _ _ value => some value
  | .literal _ _ _ _ value => some value
  | .unary _ _ _ _ value => value
  | .binary _ _ _ _ value => value
  | .paren _ x => x.value?
  | _ => none

/-- Whether an expression can be assigned to: a local, a parameter or a field,
but not the receiver. -/
def isVariable : Expr → Bool
  | .var _ v => v.kind ≠ .recv
  | .field .. => true
  | .paren _ x => x.isVariable
  | _ => false

/-- An expression without the parentheses around it. -/
def unparen : Expr → Expr
  | .paren _ x => x.unparen
  | x => x

/-- Where an expression starts. -/
def pos : Expr → Pos
  | .var id _ => id.pos
  | .const id _ _ _ => id.pos
  | .literal pos _ _ _ _ => pos
  | .unary pos _ _ _ _ => pos
  | .binary _ x _ _ _ => x.pos
  | .call fn _ _ _ _ => fn.pos
  | .invoke x _ _ _ _ _ => x.pos
  | .field x _ _ _ => x.pos
  | .init cls _ _ _ _ => cls.pos
  | .paren pos _ => pos

/-- Where errors about the value of an expression are placed: a selected field
is found at its name, and parentheses at what they hold. -/
def valuePos : Expr → Pos
  | .field _ sel _ _ => sel.pos
  | .paren _ x => x.valuePos
  | x => x.pos

mutual

/-- The expression as it was written. -/
def erase : Expr → ClassLang.Expr
  | .var id _ => .name id
  | .const id _ _ _ => .name id
  | .literal pos kind text _ _ => .literal pos kind text
  | .unary pos op x _ _ => .unary pos op x.erase
  | .binary op x y _ _ => .binary op x.erase y.erase
  | .call fn _ _ _ args => .call (.name fn) (eraseAll args)
  | .invoke x sel _ _ _ args => .call (.select x.erase sel) (eraseAll args)
  | .field x sel _ _ => .select x.erase sel
  | .init cls _ _ _ elems => .init cls (eraseElems elems)
  | .paren pos x => .paren pos x.erase

/-- The expressions of a list as they were written. -/
def eraseAll : List Expr → List ClassLang.Expr
  | [] => []
  | x :: rest => x.erase :: eraseAll rest

/-- The elements of an initializer as they were written. -/
def eraseElems : List (Ident × Expr) → List (Ident × ClassLang.Expr)
  | [] => []
  | (key, value) :: rest => (key, value.erase) :: eraseElems rest

end

end Expr

mutual

/-- A checked statement. -/
inductive Stmt where
  | empty (pos : Pos)
  | expr (x : Expr)
  | bind (pos : Pos) (v : Var) (type : TypeTerm) (value : Expr)
  | assign (lhs rhs : Expr)
  | block (body : Block)
  | ifElse (cond : Expr) (body : Block) (other : Option Stmt)
  | whileLoop (cond : Expr) (body : Block)
  | forLoop (pos : Pos) (v : Var) (start : Pos) (low high : Expr) (body : Block)
  | ret (pos : Pos) (result : Option Expr)

/-- A checked block. -/
inductive Block where
  | mk (stmts : List Stmt)

end

namespace Block

/-- The statements of a block. -/
def stmts : Block → List Stmt
  | .mk stmts => stmts

end Block

instance : Inhabited Stmt := ⟨.empty default⟩

instance : Inhabited Block := ⟨.mk []⟩

/-- A type parameter with its bound. -/
structure TypeParamTerm where
  decl : TypeParamDecl
  param : TypeParam
  bound : Option Symbol
  deriving Inhabited

/-- The header of a function: what its names stand for, and its signature. -/
structure Header where
  tparams : List TypeParamTerm
  recv : Option Var
  params : List (Var × TypeTerm)
  result : Option TypeTerm
  sig : Signature
  deriving Inhabited

/-- A checked function, method, host function or method of a bound. -/
structure Func where
  decl : FuncDecl
  ref : FuncRef
  sym : Symbol
  header : Header
  body : Option Block

/-- A checked class. -/
structure Class where
  decl : ClassDecl
  tparams : List TypeParamTerm
  fields : List (Field × TypeTerm)
  methods : List Func

/-- A checked bound. -/
structure Bound where
  decl : BoundDecl
  methods : List Func

/-- A checked constant. -/
structure Const where
  decl : ConstDecl
  type : TypeTerm
  expr : Expr
  value : Constant

/-- A checked declaration. -/
inductive Decl where
  | cls (d : Class)
  | bound (d : Bound)
  | func (d : Func)
  | const (d : Const)

/-- A checked unit: its declarations in source order, its sealed table, and its
scopes with everything declared in them. -/
structure File where
  name : String
  decls : List Decl
  table : Table
  scope : Scope Symbol

namespace File

/-- The constants of a unit in source order. -/
def consts (f : File) : List Const :=
  f.decls.filterMap fun
    | .const d => some d
    | _ => none

/-- The top-level functions of a unit in source order. -/
def funcs (f : File) : List Func :=
  f.decls.filterMap fun
    | .func d => some d
    | _ => none

/-- The functions and methods of a unit that have a body, in source order. -/
def bodies (f : File) : List Func :=
  f.decls.flatMap fun
    | .func d => if d.decl.host then [] else [d]
    | .cls d => d.methods
    | _ => []

/-- The host functions of a unit in source order. -/
def hosts (f : File) : List Func := f.funcs.filter (·.decl.host)

/-- The signature of a top-level function. -/
def signature? (f : File) (name : String) : Option Signature :=
  (f.funcs.find? (·.decl.name.text = name)).map (·.header.sig)

/-- The text shown behind a name in a listing of scopes. -/
def describe (f : File) : Symbol → Option String
  | .basic t => some t.text
  | .truth _ => some Ty.bool.text
  | .cls id => some id.text
  | .bound _ => none
  | .func id _ => (f.signature? id.text).map (·.text)
  | .const id => (f.consts.find? (·.decl.name.text = id.text)).map (·.type.ty.text)
  | .typeParam p _ => some p.name
  | .var v => some v.ty.text
  | .field x => some x.ty.text
  | .method m | .boundMethod m => some m.sig.text

end File

end Typed

end ClassLang

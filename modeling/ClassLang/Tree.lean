import ClassLang.Source.Position
import ClassLang.Token

/-!
The syntax tree of a unit. Names are not resolved yet; every node knows the
place where it starts. A node that starts with another one has that node's
place and does not store its own.
-/

namespace ClassLang

/-- A name at its place. -/
structure Ident where
  pos : Pos
  text : String
  deriving DecidableEq, Repr, Inhabited

/-- A type as it is written: a name, or a generic class with arguments. -/
inductive TypeExpr where
  | name (id : Ident)
  | apply (base : Ident) (args : List TypeExpr)
  deriving Repr, Inhabited

/-- The operators of one operand. -/
inductive UnaryOp where
  | not | neg
  deriving DecidableEq, Repr, Inhabited

/-- The operators of two operands. -/
inductive BinaryOp where
  | or | and | eql | neq | lss | leq | gtr | geq | add | sub | mul | div | rem
  deriving DecidableEq, Repr, Inhabited

/-- An expression. The position of a literal, of a unary operation and of a
parenthesis is stored; any other expression starts where its first part does. -/
inductive Expr where
  | name (id : Ident)
  | literal (pos : Pos) (kind : LitKind) (text : String)
  | unary (pos : Pos) (op : UnaryOp) (x : Expr)
  | binary (op : BinaryOp) (x y : Expr)
  | call (fn : Expr) (args : List Expr)
  | select (x : Expr) (sel : Ident)
  | init (cls : Ident) (elems : List (Ident × Expr))
  | paren (pos : Pos) (x : Expr)
  deriving Repr, Inhabited

/-- The inclusive bounds of a counting loop. -/
structure Range where
  pos : Pos
  low : Expr
  high : Expr
  deriving Repr, Inhabited

mutual

/-- A statement. An expression statement and an assignment start where their
first expression does. -/
inductive Stmt where
  | empty (pos : Pos)
  | expr (x : Expr)
  | bind (pos : Pos) (name : Ident) (type : TypeExpr) (value : Expr)
  | assign (lhs rhs : Expr)
  | block (body : Block)
  | ifElse (pos : Pos) (cond : Expr) (body : Block) (other : Option Stmt)
  | whileLoop (pos : Pos) (cond : Expr) (body : Block)
  | forLoop (pos : Pos) (var : Ident) (range : Range) (body : Block)
  | ret (pos : Pos) (result : Option Expr)

/-- Statements between braces; `close` is the place of the closing brace. -/
inductive Block where
  | mk (pos : Pos) (stmts : List Stmt) (close : Pos)

end

/-- A type parameter, with the bound it has to satisfy. -/
structure TypeParamDecl where
  name : Ident
  bound : Option Ident
  deriving Repr, Inhabited

/-- A field or a parameter. -/
structure FieldDecl where
  name : Ident
  type : TypeExpr
  deriving Repr, Inhabited

/-- A function, a host function, a method, or a method that a bound asks for. -/
structure FuncDecl where
  pos : Pos
  name : Ident
  recv : Option Ident
  tparams : List TypeParamDecl
  params : List FieldDecl
  result : Option TypeExpr
  body : Option Block
  host : Bool

/-- A class with its own fields and methods. -/
structure ClassDecl where
  pos : Pos
  name : Ident
  tparams : List TypeParamDecl
  parent : Option Ident
  fields : List FieldDecl
  methods : List FuncDecl

/-- A bound: the methods a type argument must have. -/
structure BoundDecl where
  pos : Pos
  name : Ident
  methods : List FuncDecl

/-- A named constant. -/
structure ConstDecl where
  pos : Pos
  name : Ident
  type : TypeExpr
  value : Expr

/-- A declaration of a unit. -/
inductive Decl where
  | cls (d : ClassDecl)
  | bound (d : BoundDecl)
  | func (d : FuncDecl)
  | const (d : ConstDecl)

/-- One compilation unit. -/
structure File where
  name : String
  pos : Pos
  decls : List Decl

namespace UnaryOp

/-- The token of an operator. -/
def token : UnaryOp → Token
  | .not => .not
  | .neg => .sub

/-- The operator of a token. -/
def ofToken? : Token → Option UnaryOp
  | .not => some .not
  | .sub => some .neg
  | _ => none

end UnaryOp

namespace BinaryOp

/-- The token of an operator. -/
def token : BinaryOp → Token
  | .or => .orOr
  | .and => .andAnd
  | .eql => .eql
  | .neq => .neq
  | .lss => .lss
  | .leq => .leq
  | .gtr => .gtr
  | .geq => .geq
  | .add => .add
  | .sub => .sub
  | .mul => .mul
  | .div => .div
  | .rem => .rem

/-- The operator of a token. -/
def ofToken? : Token → Option BinaryOp
  | .orOr => some .or
  | .andAnd => some .and
  | .eql => some .eql
  | .neq => some .neq
  | .lss => some .lss
  | .leq => some .leq
  | .gtr => some .gtr
  | .geq => some .geq
  | .add => some .add
  | .sub => some .sub
  | .mul => some .mul
  | .div => some .div
  | .rem => some .rem
  | _ => none

/-- How tightly an operator binds. -/
def precedence (op : BinaryOp) : Nat := op.token.precedence

end BinaryOp

namespace TypeExpr

/-- Where a type starts. -/
def pos : TypeExpr → Pos
  | .name id => id.pos
  | .apply base _ => base.pos

end TypeExpr

namespace Expr

/-- Where an expression starts. -/
def pos : Expr → Pos
  | .name id => id.pos
  | .literal pos _ _ => pos
  | .unary pos _ _ => pos
  | .binary _ x _ => x.pos
  | .call fn _ => fn.pos
  | .select x _ => x.pos
  | .init cls _ => cls.pos
  | .paren pos _ => pos

/-- An expression without the parentheses around it. -/
def unparen : Expr → Expr
  | .paren _ x => x.unparen
  | x => x

end Expr

namespace Block

/-- Where a block starts. -/
def pos : Block → Pos
  | .mk pos _ _ => pos

/-- The statements of a block. -/
def stmts : Block → List Stmt
  | .mk _ stmts _ => stmts

/-- The place of the closing brace of a block. -/
def close : Block → Pos
  | .mk _ _ close => close

end Block

instance : Inhabited Block := ⟨.mk default [] default⟩

instance : Inhabited Stmt := ⟨.empty default⟩

namespace Stmt

/-- Where a statement starts. -/
def pos : Stmt → Pos
  | .empty pos => pos
  | .expr x => x.pos
  | .bind pos _ _ _ => pos
  | .assign lhs _ => lhs.pos
  | .block body => body.pos
  | .ifElse pos _ _ _ => pos
  | .whileLoop pos _ _ => pos
  | .forLoop pos _ _ _ => pos
  | .ret pos _ => pos

end Stmt

namespace Decl

/-- Where a declaration starts. -/
def pos : Decl → Pos
  | .cls d => d.pos
  | .bound d => d.pos
  | .func d => d.pos
  | .const d => d.pos

/-- The name a declaration introduces. -/
def name : Decl → Ident
  | .cls d => d.name
  | .bound d => d.name
  | .func d => d.name
  | .const d => d.name

end Decl

namespace File

/-- The classes of a unit in source order. -/
def classes (f : File) : List ClassDecl :=
  f.decls.filterMap fun
    | .cls d => some d
    | _ => none

/-- The functions of a unit in source order, without its methods. -/
def funcs (f : File) : List FuncDecl :=
  f.decls.filterMap fun
    | .func d => some d
    | _ => none

/-- The constants of a unit in source order. -/
def consts (f : File) : List ConstDecl :=
  f.decls.filterMap fun
    | .const d => some d
    | _ => none

end File

end ClassLang

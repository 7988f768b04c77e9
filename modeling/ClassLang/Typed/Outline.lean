import ClassLang.Tree.Outline
import ClassLang.Typed

/-!
An outline of a checked unit: one line for each declaration and statement, with
the types of all expressions.
-/

namespace ClassLang.Typed

open Outline (line)

namespace Expr

/-- An outline of an operation: its head, its type and its parts. -/
def shape (head : String) (ty : Ty) (parts : String) : String :=
  s!"{head} ({ty.text}) [{parts}]"

/-- A name with its type. -/
def nameShape (id : Ident) (ty : Ty) : String := s!"Name {Text.quote id.text} ({ty.text})"

/-- The parts of a call. -/
def callParts (fn : String) (args : List String) : String :=
  "Fun=" ++ fn ++ ", Args=[" ++ ", ".intercalate args ++ "]"

mutual

/-- An expression with the types of all its parts. The function of a call has no
type of its own. -/
def outline : Expr → String
  | .var id v => nameShape id v.ty
  | .const id _ ty _ => nameShape id ty
  | .literal _ _ text ty _ => s!"BasicLit {Text.quote text} ({ty.text})"
  | .unary _ op x ty _ => shape ("Operation " ++ op.token.text) ty ("X=" ++ x.outline)
  | .binary op x y ty _ =>
    shape ("Operation " ++ op.token.text) ty ("X=" ++ x.outline ++ ", Y=" ++ y.outline)
  | .call fn _ _ sig args =>
    shape "CallExpr direct" sig.result (callParts ("Name " ++ Text.quote fn.text) (outlines args))
  | .invoke x sel kind _ sig args =>
    shape ("CallExpr " ++ kind.text) sig.result
      (callParts ("SelectorExpr ." ++ sel.text ++ " [X=" ++ x.outline ++ "]") (outlines args))
  | .field x sel _ ty => shape ("SelectorExpr ." ++ sel.text) ty ("X=" ++ x.outline)
  | .init _ _ ty _ elems => shape "InitExpr" ty (", ".intercalate (elemOutlines elems))
  | .paren _ x => shape "ParenExpr" x.ty ("X=" ++ x.outline)

/-- The outlines of a list of expressions. -/
def outlines : List Expr → List String
  | [] => []
  | x :: rest => x.outline :: outlines rest

/-- The outlines of the elements of an initializer. -/
def elemOutlines : List (Ident × Expr) → List String
  | [] => []
  | (key, value) :: rest => (key.text ++ ": " ++ value.outline) :: elemOutlines rest

end

end Expr

/-- A declared name with its type. -/
def declared (name type : String) : String := s!"{name} ({type})"

mutual

/-- The outline of a statement. -/
def Stmt.outline (depth : Nat) : Stmt → String
  | .empty _ => line depth "*syntax.EmptyStmt"
  | .expr x => line depth s!"ExprStmt {x.outline}"
  | .bind _ v _ value =>
    line depth s!"LetStmt {declared v.name v.ty.text} = {value.outline}"
  | .assign lhs rhs => line depth s!"AssignStmt {lhs.outline} = {rhs.outline}"
  | .block body => body.outline depth
  | .ifElse cond body other =>
    line depth s!"IfStmt {cond.outline}" ++ body.outline (depth + 1)
      ++ (match other with
        | some s => line depth "Else" ++ s.outline (depth + 1)
        | none => "")
  | .whileLoop cond body =>
    line depth s!"WhileStmt {cond.outline}" ++ body.outline (depth + 1)
  | .forLoop _ v _ low high body =>
    line depth s!"ForStmt {declared v.name v.ty.text} in [{low.outline}, {high.outline}]"
      ++ body.outline (depth + 1)
  | .ret _ none => line depth "ReturnStmt"
  | .ret _ (some x) => line depth s!"ReturnStmt {x.outline}"

/-- The outline of a block. -/
def Block.outline (depth : Nat) : Block → String
  | .mk stmts => line depth "BlockStmt" ++ Stmt.outlines (depth + 1) stmts

/-- The outlines of a list of statements. -/
def Stmt.outlines (depth : Nat) : List Stmt → String
  | [] => ""
  | s :: rest => s.outline depth ++ Stmt.outlines depth rest

end

/-- The outline of a function or method. -/
def Func.outline (depth : Nat) (f : Func) : String :=
  line depth s!"{f.decl.role} {declared f.decl.name.text f.header.sig.text}"
    ++ (match f.body with
      | some b => Stmt.outlines (depth + 1) b.stmts
      | none => "")

/-- The outline of a declaration. -/
def Decl.outline (depth : Nat) : Decl → String
  | .cls c =>
    let name := c.decl.name.text
    line depth s!"ClassDecl {declared name name}"
      ++ String.join (c.fields.map fun (f, _) =>
        line (depth + 1) s!"Field {declared f.name f.ty.text}")
      ++ String.join (c.methods.map (·.outline (depth + 1)))
  | .bound b =>
    line depth s!"BoundDecl {b.decl.name.text}"
      ++ String.join (b.methods.map fun m => line (depth + 1) s!"Method {m.decl.headerText}")
  | .func f => f.outline depth
  | .const c =>
    line depth s!"ConstDecl {declared c.decl.name.text c.type.ty.text} = {c.expr.outline}"

/-- The outline of a unit. -/
def File.outline (f : File) : String :=
  line 0 s!"File {f.name}" ++ String.join (f.decls.map (·.outline 1))

end ClassLang.Typed

import ClassLang.Tree.Text

/-!
An indented outline of a syntax tree, one line for each node.
-/

namespace ClassLang

namespace Outline

/-- The text of a line at depth `depth`. -/
def line (depth : Nat) (s : String) : String :=
  String.join (List.replicate depth "  ") ++ s ++ "\n"

end Outline

open Outline

namespace Expr

mutual

/-- The outline of an expression. -/
def outline (depth : Nat) : Expr → String
  | .name id => line depth s!"Name {id.pos.text} {Text.quote id.text}"
  | .literal pos kind s =>
    line depth s!"BasicLit {pos.text} {kind.text} {Text.quote s}"
  | .unary pos op x =>
    line depth s!"UnaryOp {pos.text} {op.token.text}" ++ x.outline (depth + 1)
  | .binary op x y =>
    line depth s!"BinaryOp {x.pos.text} {op.token.text}"
      ++ line (depth + 1) "X:" ++ x.outline (depth + 2)
      ++ line (depth + 1) "Y:" ++ y.outline (depth + 2)
  | .call fn args =>
    line depth s!"CallExpr {fn.pos.text}"
      ++ line (depth + 1) "Fun:" ++ fn.outline (depth + 2)
      ++ (if args.isEmpty then "" else line (depth + 1) "Args:")
      ++ outlines (depth + 2) args
  | .select x sel =>
    line depth s!"SelectorExpr {x.pos.text} .{sel.text}" ++ x.outline (depth + 1)
  | .init cls elems =>
    line depth s!"InitExpr {cls.pos.text} {cls.text}" ++ elemOutlines (depth + 1) elems
  | .paren pos x => line depth s!"ParenExpr {pos.text}" ++ x.outline (depth + 1)

/-- The outlines of a list of expressions. -/
def outlines (depth : Nat) : List Expr → String
  | [] => ""
  | x :: rest => x.outline depth ++ outlines depth rest

/-- The outlines of the elements of an initializer. -/
def elemOutlines (depth : Nat) : List (Ident × Expr) → String
  | [] => ""
  | (key, value) :: rest =>
    line depth s!"{key.text}:" ++ value.outline (depth + 1) ++ elemOutlines depth rest

end

end Expr

mutual

/-- The outline of a statement. -/
def Stmt.outline (depth : Nat) : Stmt → String
  | .empty pos => line depth s!"EmptyStmt {pos.text}"
  | .expr x => line depth s!"ExprStmt {x.pos.text}" ++ x.outline (depth + 1)
  | .bind pos name type value =>
    line depth s!"LetStmt {pos.text} {name.text}: {type.text}" ++ value.outline (depth + 1)
  | .assign lhs rhs =>
    line depth s!"AssignStmt {lhs.pos.text}"
      ++ line (depth + 1) "LHS:" ++ lhs.outline (depth + 2)
      ++ line (depth + 1) "RHS:" ++ rhs.outline (depth + 2)
  | .block body => body.outline depth
  | .ifElse pos cond body other =>
    line depth s!"IfStmt {pos.text}"
      ++ line (depth + 1) "Cond:" ++ cond.outline (depth + 2)
      ++ line (depth + 1) "Then:" ++ body.outline (depth + 2)
      ++ (match other with
        | some s => line (depth + 1) "Else:" ++ s.outline (depth + 2)
        | none => "")
  | .whileLoop pos cond body =>
    line depth s!"WhileStmt {pos.text}"
      ++ line (depth + 1) "Cond:" ++ cond.outline (depth + 2)
      ++ line (depth + 1) "Body:" ++ body.outline (depth + 2)
  | .forLoop pos var range body =>
    line depth s!"ForStmt {pos.text} {var.text}"
      ++ line (depth + 1) "Range:"
      ++ range.low.outline (depth + 2) ++ range.high.outline (depth + 2)
      ++ line (depth + 1) "Body:" ++ body.outline (depth + 2)
  | .ret pos result =>
    line depth s!"ReturnStmt {pos.text}"
      ++ (match result with
        | some x => x.outline (depth + 1)
        | none => "")

/-- The outline of a block. -/
def Block.outline (depth : Nat) : Block → String
  | .mk pos stmts _ => line depth s!"BlockStmt {pos.text}" ++ Stmt.outlines (depth + 1) stmts

/-- The outlines of a list of statements. -/
def Stmt.outlines (depth : Nat) : List Stmt → String
  | [] => ""
  | s :: rest => s.outline depth ++ Stmt.outlines depth rest

end

/-- The outline of a function. -/
def FuncDecl.outline (depth : Nat) (d : FuncDecl) : String :=
  line depth s!"{d.role} {d.pos.text} {d.headerText}"
    ++ (match d.body with
      | some b => b.outline (depth + 1)
      | none => "")

/-- The outline of a class. -/
def ClassDecl.outline (depth : Nat) (d : ClassDecl) : String :=
  line depth s!"ClassDecl {d.pos.text} {d.name.text}{TypeParamDecl.listText d.tparams}"
    ++ (match d.parent with
      | some p => line (depth + 1) s!"Parent: {p.text}"
      | none => "")
    ++ String.join (d.fields.map fun f =>
      line (depth + 1) s!"Field: {f.name.text} {f.type.text}")
    ++ String.join (d.methods.map (·.outline (depth + 1)))

/-- The outline of a declaration. -/
def Decl.outline (depth : Nat) : Decl → String
  | .cls d => d.outline depth
  | .bound d =>
    line depth s!"BoundDecl {d.pos.text} {d.name.text}"
      ++ String.join (d.methods.map fun m => line (depth + 1) s!"Method: {m.headerText}")
  | .func d => d.outline depth
  | .const d =>
    line depth s!"ConstDecl {d.pos.text} {d.name.text}: {d.type.text}"
      ++ d.value.outline (depth + 1)

/-- The outline of a unit. -/
def File.outline (f : File) : String :=
  line 0 s!"File {f.name}" ++ String.join (f.decls.map (·.outline 1))

end ClassLang

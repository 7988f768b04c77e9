import ClassLang.Tree.Text

/-!
The nodes of a syntax tree in depth-first order. A visit may leave out what
lies below chosen nodes.
-/

namespace ClassLang

/-- Any node of a syntax tree. -/
inductive Node where
  | file (f : File)
  | cls (d : ClassDecl)
  | bound (d : BoundDecl)
  | func (d : FuncDecl)
  | const (d : ConstDecl)
  | typeParam (d : TypeParamDecl)
  | field (d : FieldDecl)
  | ident (id : Ident)
  | type (t : TypeExpr)
  | expr (e : Expr)
  | elem (key : Ident) (value : Expr)
  | range (r : Range)
  | stmt (s : Stmt)
  | block (b : Block)

namespace Node

/-- The name of a kind of expression. -/
def exprKind : Expr → String
  | .name _ => "Name"
  | .literal .. => "BasicLit"
  | .unary .. | .binary .. => "Operation"
  | .call .. => "CallExpr"
  | .select .. => "SelectorExpr"
  | .init .. => "InitExpr"
  | .paren .. => "ParenExpr"

/-- The name of a kind of statement. -/
def stmtKind : Stmt → String
  | .empty _ => "EmptyStmt"
  | .expr _ => "ExprStmt"
  | .bind .. => "LetStmt"
  | .assign .. => "AssignStmt"
  | .block _ => "BlockStmt"
  | .ifElse .. => "IfStmt"
  | .whileLoop .. => "WhileStmt"
  | .forLoop .. => "ForStmt"
  | .ret .. => "ReturnStmt"

/-- The name of the kind of a node. -/
def kind : Node → String
  | .file _ => "File"
  | .cls _ => "ClassDecl"
  | .bound _ => "BoundDecl"
  | .func _ => "FuncDecl"
  | .const _ => "ConstDecl"
  | .typeParam _ => "TypeParam"
  | .field _ => "Field"
  | .ident _ => "Name"
  | .type (.name _) => "Name"
  | .type (.apply ..) => "InstType"
  | .expr e => exprKind e
  | .elem .. => "KeyValueExpr"
  | .range _ => "RangeExpr"
  | .stmt s => stmtKind s
  | .block _ => "BlockStmt"

/-- Where a node starts. -/
def pos : Node → Pos
  | .file f => f.pos
  | .cls d => d.pos
  | .bound d => d.pos
  | .func d => d.pos
  | .const d => d.pos
  | .typeParam d => d.name.pos
  | .field d => d.name.pos
  | .ident id => id.pos
  | .type t => t.pos
  | .expr e => e.pos
  | .elem key _ => key.pos
  | .range r => r.pos
  | .stmt s => s.pos
  | .block b => b.pos

/-- The texts shown beside a node: an expression in source form, with and
without the parentheses around it, and the header of a function. -/
def labels : Node → List String
  | .func d => [d.headerText]
  | .ident id => [id.text, id.text]
  | .type t => [t.text, t.text]
  | .expr e => [e.text, e.unparen.text]
  | .elem .. => ["<*syntax.KeyValueExpr>", "<*syntax.KeyValueExpr>"]
  | .range r => [r.text, r.text]
  | _ => []

/-- A node, followed by the nodes below it if the visit enters it. -/
def visit (enter : Node → Bool) (n : Node) (below : List Node) : List Node :=
  n :: (if enter n then below else [])

end Node

open Node (visit)

namespace TypeExpr

mutual

/-- The nodes of a type. -/
def nodes (enter : Node → Bool) : TypeExpr → List Node
  | .name id => visit enter (.type (.name id)) []
  | .apply base args =>
    visit enter (.type (.apply base args))
      (visit enter (.ident base) [] ++ nodesOf enter args)

/-- The nodes of a list of types. -/
def nodesOf (enter : Node → Bool) : List TypeExpr → List Node
  | [] => []
  | t :: rest => t.nodes enter ++ nodesOf enter rest

end

end TypeExpr

namespace Expr

mutual

/-- The nodes of an expression. -/
def nodes (enter : Node → Bool) : Expr → List Node
  | .name id => visit enter (.expr (.name id)) []
  | .literal pos kind s => visit enter (.expr (.literal pos kind s)) []
  | .unary pos op x => visit enter (.expr (.unary pos op x)) (x.nodes enter)
  | .binary op x y => visit enter (.expr (.binary op x y)) (x.nodes enter ++ y.nodes enter)
  | .call fn args =>
    visit enter (.expr (.call fn args)) (fn.nodes enter ++ nodesOf enter args)
  | .select x sel =>
    visit enter (.expr (.select x sel)) (x.nodes enter ++ visit enter (.ident sel) [])
  | .init cls elems =>
    visit enter (.expr (.init cls elems))
      (visit enter (.ident cls) [] ++ elemNodes enter elems)
  | .paren pos x => visit enter (.expr (.paren pos x)) (x.nodes enter)

/-- The nodes of a list of expressions. -/
def nodesOf (enter : Node → Bool) : List Expr → List Node
  | [] => []
  | x :: rest => x.nodes enter ++ nodesOf enter rest

/-- The nodes of the elements of an initializer. -/
def elemNodes (enter : Node → Bool) : List (Ident × Expr) → List Node
  | [] => []
  | (key, value) :: rest =>
    visit enter (.elem key value) (visit enter (.ident key) [] ++ value.nodes enter)
      ++ elemNodes enter rest

end

end Expr

/-- The nodes of the bounds of a loop. -/
def Range.nodes (enter : Node → Bool) (r : Range) : List Node :=
  visit enter (.range r) (r.low.nodes enter ++ r.high.nodes enter)

mutual

/-- The nodes of a statement. -/
def Stmt.nodes (enter : Node → Bool) : Stmt → List Node
  | .empty pos => visit enter (.stmt (.empty pos)) []
  | .expr x => visit enter (.stmt (.expr x)) (x.nodes enter)
  | .bind pos name type value =>
    visit enter (.stmt (.bind pos name type value))
      (visit enter (.ident name) [] ++ type.nodes enter ++ value.nodes enter)
  | .assign lhs rhs =>
    visit enter (.stmt (.assign lhs rhs)) (lhs.nodes enter ++ rhs.nodes enter)
  | .block body => body.nodes enter
  | .ifElse pos cond body other =>
    visit enter (.stmt (.ifElse pos cond body other))
      (cond.nodes enter ++ body.nodes enter
        ++ (match other with
          | some s => s.nodes enter
          | none => []))
  | .whileLoop pos cond body =>
    visit enter (.stmt (.whileLoop pos cond body)) (cond.nodes enter ++ body.nodes enter)
  | .forLoop pos var range body =>
    visit enter (.stmt (.forLoop pos var range body))
      (visit enter (.ident var) [] ++ range.nodes enter ++ body.nodes enter)
  | .ret pos result =>
    visit enter (.stmt (.ret pos result))
      (match result with
        | some x => x.nodes enter
        | none => [])

/-- The nodes of a block. -/
def Block.nodes (enter : Node → Bool) : Block → List Node
  | .mk pos stmts close =>
    visit enter (.block (.mk pos stmts close)) (Stmt.nodesOf enter stmts)

/-- The nodes of a list of statements. -/
def Stmt.nodesOf (enter : Node → Bool) : List Stmt → List Node
  | [] => []
  | s :: rest => s.nodes enter ++ Stmt.nodesOf enter rest

end

/-- The nodes of a type parameter. -/
def TypeParamDecl.nodes (enter : Node → Bool) (d : TypeParamDecl) : List Node :=
  visit enter (.typeParam d)
    (visit enter (.ident d.name) [] ++ d.bound.toList.flatMap fun b => visit enter (.ident b) [])

/-- The nodes of a field or parameter. -/
def FieldDecl.nodes (enter : Node → Bool) (d : FieldDecl) : List Node :=
  visit enter (.field d) (visit enter (.ident d.name) [] ++ d.type.nodes enter)

/-- The nodes of a function: its receiver comes before its name. -/
def FuncDecl.nodes (enter : Node → Bool) (d : FuncDecl) : List Node :=
  visit enter (.func d)
    ((d.recv.toList.flatMap fun r => visit enter (.ident r) [])
      ++ visit enter (.ident d.name) []
      ++ d.tparams.flatMap (·.nodes enter)
      ++ d.params.flatMap (·.nodes enter)
      ++ d.result.toList.flatMap (·.nodes enter)
      ++ d.body.toList.flatMap (·.nodes enter))

/-- The nodes of a class. -/
def ClassDecl.nodes (enter : Node → Bool) (d : ClassDecl) : List Node :=
  visit enter (.cls d)
    (visit enter (.ident d.name) []
      ++ d.tparams.flatMap (·.nodes enter)
      ++ (d.parent.toList.flatMap fun p => visit enter (.ident p) [])
      ++ d.fields.flatMap (·.nodes enter)
      ++ d.methods.flatMap (·.nodes enter))

/-- The nodes of a declaration. -/
def Decl.nodes (enter : Node → Bool) : Decl → List Node
  | .cls d => d.nodes enter
  | .bound d =>
    visit enter (.bound d)
      (visit enter (.ident d.name) [] ++ d.methods.flatMap (·.nodes enter))
  | .func d => d.nodes enter
  | .const d =>
    visit enter (.const d)
      (visit enter (.ident d.name) [] ++ d.type.nodes enter ++ d.value.nodes enter)

/-- The nodes of a unit. -/
def File.nodes (enter : Node → Bool) (f : File) : List Node :=
  visit enter (.file f) (f.decls.flatMap (·.nodes enter))

end ClassLang

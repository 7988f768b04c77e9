import ClassLang.Tree

/-!
What a reader of source text can rely on beyond the form of the tree: what stands
behind an `else`, and where the variables of a function are declared.
-/

namespace ClassLang

namespace Stmt

/-- Whether a statement can stand behind `else`. -/
def isBranch : Stmt → Bool
  | .block _ | .ifElse .. => true
  | _ => false

end Stmt

mutual

/-- Behind every `else` stands a block or another `if`. -/
def Stmt.Shaped : Stmt → Prop
  | .block body => body.Shaped
  | .ifElse _ _ body other => body.Shaped ∧ Stmt.OtherShaped other
  | .whileLoop _ _ body => body.Shaped
  | .forLoop _ _ _ body => body.Shaped
  | _ => True

@[inherit_doc Stmt.Shaped]
def Stmt.OtherShaped : Option Stmt → Prop
  | none => True
  | some s => s.isBranch = true ∧ s.Shaped

@[inherit_doc Stmt.Shaped]
def Block.Shaped : Block → Prop
  | .mk _ stmts _ => Stmt.AllShaped stmts

@[inherit_doc Stmt.Shaped]
def Stmt.AllShaped : List Stmt → Prop
  | [] => True
  | s :: rest => s.Shaped ∧ Stmt.AllShaped rest

end

mutual

/-- Where the variables of a statement are declared, in source order. -/
def Stmt.binders : Stmt → List Pos
  | .bind _ name _ _ => [name.pos]
  | .block body => body.binders
  | .ifElse _ _ body other => body.binders ++ Stmt.otherBinders other
  | .whileLoop _ _ body => body.binders
  | .forLoop _ var _ body => var.pos :: body.binders
  | _ => []

@[inherit_doc Stmt.binders]
def Stmt.otherBinders : Option Stmt → List Pos
  | none => []
  | some s => s.binders

@[inherit_doc Stmt.binders]
def Block.binders : Block → List Pos
  | .mk _ stmts _ => Stmt.allBinders stmts

@[inherit_doc Stmt.binders]
def Stmt.allBinders : List Stmt → List Pos
  | [] => []
  | s :: rest => s.binders ++ Stmt.allBinders rest

end

namespace FuncDecl

/-- Where the variables of a function are declared: its receiver, its parameters, and
those of its body. -/
def binders (d : FuncDecl) : List Pos :=
  d.recv.toList.map (·.pos) ++ d.params.map (·.name.pos) ++ (d.body.map Block.binders).getD []

end FuncDecl

/-- What is known of the form of a function beyond its tree. -/
structure FuncDecl.Shaped (d : FuncDecl) : Prop where
  body : ∀ b ∈ d.body, b.Shaped
  bodied : d.host = false → d.body.isSome = true

namespace FuncDecl

/-- Where a function and its variables are declared, in source order. -/
def places (d : FuncDecl) : List Pos := d.name.pos :: d.binders

end FuncDecl

namespace ClassDecl

/-- Where the members of a class and their variables are declared, in source order. -/
def places (d : ClassDecl) : List Pos :=
  d.fields.map (·.name.pos) ++ d.methods.flatMap FuncDecl.places

end ClassDecl

namespace Decl

/-- The functions or methods of a declaration. -/
def functions : Decl → List FuncDecl
  | .func d => [d]
  | .cls d => d.methods
  | _ => []

/-- Where the functions of a declaration, its fields and their variables are declared,
in source order. -/
def places : Decl → List Pos
  | .func d => d.places
  | .cls d => d.places
  | .bound d => d.methods.flatMap FuncDecl.places
  | .const _ => []

/-- What is known of the form of a declaration beyond its tree: a method has a receiver
and a body, and a function has no receiver. -/
def Shaped : Decl → Prop
  | .func d => d.Shaped ∧ d.recv = none
  | .cls d => ∀ m ∈ d.methods, m.Shaped ∧ m.recv.isSome = true ∧ m.host = false
  | _ => True

end Decl

namespace File

/-- The functions and methods of a unit, in source order. -/
def functions (f : File) : List FuncDecl := f.decls.flatMap Decl.functions

/-- Where the functions and fields of a unit and their variables are declared, in source
order. -/
def places (f : File) : List Pos := f.decls.flatMap Decl.places

end File

end ClassLang

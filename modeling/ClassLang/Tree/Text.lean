import ClassLang.Text.Quoted
import ClassLang.Tree

/-!
Expressions, types and function headers in source form, as messages show them.
-/

namespace ClassLang

namespace TypeExpr

mutual

/-- A type in source form. -/
def text : TypeExpr → String
  | .name id => id.text
  | .apply base args => base.text ++ "<" ++ ", ".intercalate (texts args) ++ ">"

/-- The source forms of a list of types. -/
def texts : List TypeExpr → List String
  | [] => []
  | t :: rest => t.text :: texts rest

end

end TypeExpr

namespace Expr

mutual

/-- An expression in source form. Operands are not parenthesized again, since
the parentheses of the source are nodes of the tree. -/
def text : Expr → String
  | .name id => id.text
  | .literal _ .string s => Text.quote s
  | .literal _ _ s => s
  | .unary _ op x => op.token.text ++ x.text
  | .binary op x y => x.text ++ " " ++ op.token.text ++ " " ++ y.text
  | .call fn args => fn.text ++ "(" ++ ", ".intercalate (texts args) ++ ")"
  | .select x sel => x.text ++ "." ++ sel.text
  | .init cls elems =>
    cls.text ++ ":init(" ++ ", ".intercalate (elemTexts elems) ++ ")"
  | .paren _ x => "(" ++ x.text ++ ")"

/-- The source forms of a list of expressions. -/
def texts : List Expr → List String
  | [] => []
  | x :: rest => x.text :: texts rest

/-- The source forms of the elements of an initializer. -/
def elemTexts : List (Ident × Expr) → List String
  | [] => []
  | (key, value) :: rest => (key.text ++ ": " ++ value.text) :: elemTexts rest

end

end Expr

namespace Range

/-- The bounds of a loop in source form. -/
def text (r : Range) : String := "[" ++ r.low.text ++ ", " ++ r.high.text ++ "]"

end Range

namespace TypeParamDecl

/-- A type parameter in source form. -/
def text (p : TypeParamDecl) : String :=
  match p.bound with
  | some b => p.name.text ++ ": " ++ b.text
  | none => p.name.text

/-- A list of type parameters in source form, empty if there are none. -/
def listText (ps : List TypeParamDecl) : String :=
  if ps.isEmpty then "" else "<" ++ ", ".intercalate (ps.map text) ++ ">"

end TypeParamDecl

namespace FuncDecl

/-- The header of a function in source form, without its keyword. -/
def headerText (d : FuncDecl) : String :=
  let recv := d.recv.toList.map (·.text)
  let params := d.params.map fun p => p.name.text ++ ": " ++ p.type.text
  let result :=
    match d.result with
    | some t => ": " ++ t.text
    | none => ""
  d.name.text ++ TypeParamDecl.listText d.tparams
    ++ "(" ++ ", ".intercalate (recv ++ params) ++ ")" ++ result

/-- What the outlines call a function declaration. -/
def role (d : FuncDecl) : String :=
  if d.host then "ExternDecl"
  else if d.recv.isSome then "MethodDecl"
  else "FuncDecl"

end FuncDecl

end ClassLang

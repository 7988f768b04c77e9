import ClassLang.Typed

/-!
What checking found out about a unit, as a list of facts in the order of the
syntax tree: a node comes before the nodes below it.
-/

namespace ClassLang.Typed

/-- What an expression denotes. -/
inductive Mode where
  | void | type | const | var | value
  deriving DecidableEq, Repr

namespace Mode

/-- The word for a mode. -/
def text : Mode → String
  | .void => "void"
  | .type => "type"
  | .const => "const"
  | .var => "var"
  | .value => "value"

end Mode

/-- Something that checking found out. -/
inductive Fact where
  /-- An expression has a type and perhaps a value. -/
  | expr (pos : Pos) (text : String) (ty : Ty) (mode : Mode) (value : Option Constant)
  /-- A name stands for a symbol, which it defines or uses. -/
  | name (id : Ident) (defines : Bool) (sym : Symbol)
  /-- A call finds its target in a certain way. -/
  | call (text : String) (kind : CallKind) (callee : String) (recv : Option Ty)
      (targs : List Ty) (sig : Signature)
  /-- An initializer gives each field of a class its value. -/
  | init (cls : String) (ty : Ty) (values : List (Field × String))

namespace Fact

/-- A name defines a symbol. -/
def define (id : Ident) (sym : Symbol) : Fact := .name id true sym

/-- A name uses a symbol. -/
def use (id : Ident) (sym : Symbol) : Fact := .name id false sym

end Fact

namespace TypeTerm

mutual

/-- The facts about a type. -/
def facts : TypeTerm → List Fact
  | .name id sym ty => [.expr id.pos id.text ty .type none, .use id sym]
  | .apply base sym args ty =>
    [.expr base.pos (TypeTerm.apply base sym args ty).erase.text ty .type none, .use base sym]
      ++ factsOf args

/-- The facts about a list of types. -/
def factsOf : List TypeTerm → List Fact
  | [] => []
  | t :: rest => t.facts ++ factsOf rest

end

end TypeTerm

namespace Expr

/-- The mode of an expression. -/
def mode (e : Expr) : Mode :=
  if e.ty.isVoid then .void
  else if e.value?.isSome then .const
  else if e.isVariable then .var
  else .value

/-- The fact about the type of an expression. -/
def typing (e : Expr) : Fact := .expr e.pos e.erase.text e.ty e.mode e.value?

/-- The symbol of a method that a call of some kind names. -/
def methodSymbol (kind : CallKind) (m : Method) : Symbol :=
  if kind = .bound then .boundMethod m else .method m

mutual

/-- The facts about an expression. -/
def facts : Expr → List Fact
  | .var id v => [(Expr.var id v).typing, .use id (.var v)]
  | .const id sym ty value => [(Expr.const id sym ty value).typing, .use id sym]
  | .literal pos kind text ty value => [(Expr.literal pos kind text ty value).typing]
  | .unary pos op x ty value => (Expr.unary pos op x ty value).typing :: x.facts
  | .binary op x y ty value => (Expr.binary op x y ty value).typing :: (x.facts ++ y.facts)
  | .call fn sym targs sig args =>
    let e := Expr.call fn sym targs sig args
    [e.typing, .call e.erase.text .direct fn.text none targs sig, .use fn sym] ++ factsOf args
  | .invoke x sel kind m sig args =>
    let e := Expr.invoke x sel kind m sig args
    [e.typing, .call e.erase.text kind m.fullName (some x.ty) [] sig]
      ++ x.facts ++ [.use sel (methodSymbol kind m)] ++ factsOf args
  | .field x sel f ty =>
    (Expr.field x sel f ty).typing :: (x.facts ++ [.use sel (.field f)])
  | .init cls sym ty fields elems =>
    let e := Expr.init cls sym ty fields elems
    let values := fields.filterMap fun f =>
      (elems.find? (·.1.text = f.name)).map fun (_, value) => (f, value.erase.text)
    [e.typing, .init cls.text ty values, .use cls sym] ++ elemFacts fields elems
  | .paren pos x => (Expr.paren pos x).typing :: x.facts

/-- The facts about a list of expressions. -/
def factsOf : List Expr → List Fact
  | [] => []
  | x :: rest => x.facts ++ factsOf rest

/-- The facts about the elements of an initializer for the given fields. -/
def elemFacts (fields : List Field) : List (Ident × Expr) → List Fact
  | [] => []
  | (key, value) :: rest =>
    ((fields.find? (·.name = key.text)).toList.map fun f => Fact.use key (.field f))
      ++ value.facts ++ elemFacts fields rest

end

end Expr

mutual

/-- The facts about a statement. -/
def Stmt.facts : Stmt → List Fact
  | .empty _ => []
  | .expr x => x.facts
  | .bind _ v type value =>
    [.define ⟨v.pos, v.name⟩ (.var v)] ++ type.facts ++ value.facts
  | .assign lhs rhs => lhs.facts ++ rhs.facts
  | .block body => body.facts
  | .ifElse cond body other =>
    cond.facts ++ body.facts
      ++ (match other with
        | some s => s.facts
        | none => [])
  | .whileLoop cond body => cond.facts ++ body.facts
  | .forLoop _ v start low high body =>
    let range : Range := ⟨start, low.erase, high.erase⟩
    [.define ⟨v.pos, v.name⟩ (.var v), .expr start range.text .int .value none]
      ++ low.facts ++ high.facts ++ body.facts
  | .ret _ none => []
  | .ret _ (some x) => x.facts

/-- The facts about a block. -/
def Block.facts : Block → List Fact
  | .mk stmts => Stmt.factsOf stmts

/-- The facts about a list of statements. -/
def Stmt.factsOf : List Stmt → List Fact
  | [] => []
  | s :: rest => s.facts ++ Stmt.factsOf rest

end

/-- The facts about a type parameter. -/
def TypeParamTerm.facts (t : TypeParamTerm) : List Fact :=
  .define t.decl.name (.typeParam t.param t.decl.name.pos)
    :: (match t.decl.bound, t.bound with
      | some id, some sym => [.use id sym]
      | _, _ => [])

/-- The facts about a function. -/
def Func.facts (f : Func) : List Fact :=
  let h := f.header
  (h.recv.toList.map fun v => Fact.define ⟨v.pos, v.name⟩ (.var v))
    ++ [.define f.decl.name f.sym]
    ++ h.tparams.flatMap (·.facts)
    ++ (h.params.flatMap fun (v, t) => .define ⟨v.pos, v.name⟩ (.var v) :: t.facts)
    ++ h.result.toList.flatMap (·.facts)
    ++ f.body.toList.flatMap (·.facts)

/-- The facts about a declaration. -/
def Decl.facts : Decl → List Fact
  | .cls c =>
    [.define c.decl.name (.cls c.decl.name)]
      ++ c.tparams.flatMap (·.facts)
      ++ (c.fields.flatMap fun (f, t) => .define ⟨f.pos, f.name⟩ (.field f) :: t.facts)
      ++ c.methods.flatMap (·.facts)
  | .bound b => .define b.decl.name (.bound b.decl.name) :: b.methods.flatMap (·.facts)
  | .func f => f.facts
  | .const c =>
    .define c.decl.name (.const c.decl.name) :: (c.type.facts ++ c.expr.facts)

/-- The facts about a unit. -/
def File.facts (f : File) : List Fact := f.decls.flatMap (·.facts)

end ClassLang.Typed

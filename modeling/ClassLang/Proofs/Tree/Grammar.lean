import ClassLang.Tree

/-!
The grammar of the language. A derivation is a tree with one constructor for each
production; it yields a sequence of terminals, and it says which syntax tree they have.

The productions, with `[x]` for a part that may be missing and `x*` for any number of parts:

    unit     = decl*
    decl     = class | bound | func | "extern" header [";"]
             | "const" name ":" type "=" expr ";"
    class    = "class" name [tparams] [":" name] "{" items(field) method* "}"
    bound    = "bound" name "{" (mheader ";")* "}"
    func     = header block                 method  = mheader block
    header   = "fun" name [tparams] "(" items(field) ")" [":" type]
    mheader  = "fun" name [tparams] "(" (name | name "," items(field)) ")" [":" type]
    tparams  = "<" items(tparam) ">"        tparam  = name [":" name]
    field    = name ":" type                type    = name | name "<" items1(type) ">"
    items(x) = | x | x "," items(x)         items1(x) = x | x "," items1(x)
    block    = "{" stmt* "}"
    stmt     = block | if | ";" | expr ";" | expr "=" expr ";" | "return" [expr] ";"
             | "let" name ":" type "=" expr ";" | "while" expr block
             | "for" name "in" "[" expr "," expr "]" block
    if       = "if" expr block ["else" (if | block)]
    expr     = binary 6
    binary 0 = unary                        binary (n+1) = binary n | binary (n+1) op binary n
    unary    = primary | "!" unary | "-" unary
    primary  = operand | primary "(" [items1(expr)] ")" | primary "." name
    operand  = name | literal | "(" expr ")" | name ":" "init" "(" items(elem) ")"
    elem     = name ":" expr

where `op` is an operator of level `n+1`.
-/

namespace ClassLang

/-! Trees without their positions -/

namespace Ident

/-- A name at no place. -/
def bare (id : Ident) : Ident := ⟨.none, id.text⟩

end Ident

mutual

/-- A type without its positions. -/
def TypeExpr.bare : TypeExpr → TypeExpr
  | .name id => .name id.bare
  | .apply base args => .apply base.bare (TypeExpr.bareAll args)

@[inherit_doc TypeExpr.bare]
def TypeExpr.bareAll : List TypeExpr → List TypeExpr
  | [] => []
  | t :: rest => t.bare :: TypeExpr.bareAll rest

end

mutual

/-- An expression without its positions. -/
def Expr.bare : Expr → Expr
  | .name id => .name id.bare
  | .literal _ kind text => .literal .none kind text
  | .unary _ op x => .unary .none op x.bare
  | .binary op x y => .binary op x.bare y.bare
  | .call fn args => .call fn.bare (Expr.bareAll args)
  | .select x sel => .select x.bare sel.bare
  | .init cls elems => .init cls.bare (Expr.bareElems elems)
  | .paren _ x => .paren .none x.bare

@[inherit_doc Expr.bare]
def Expr.bareAll : List Expr → List Expr
  | [] => []
  | x :: rest => x.bare :: Expr.bareAll rest

@[inherit_doc Expr.bare]
def Expr.bareElems : List (Ident × Expr) → List (Ident × Expr)
  | [] => []
  | (key, x) :: rest => (key.bare, x.bare) :: Expr.bareElems rest

end

mutual

/-- A statement without its positions. -/
def Stmt.bare : Stmt → Stmt
  | .empty _ => .empty .none
  | .expr x => .expr x.bare
  | .bind _ name type value => .bind .none name.bare type.bare value.bare
  | .assign lhs rhs => .assign lhs.bare rhs.bare
  | .block body => .block body.bare
  | .ifElse _ cond body other => .ifElse .none cond.bare body.bare (Stmt.bareOther other)
  | .whileLoop _ cond body => .whileLoop .none cond.bare body.bare
  | .forLoop _ var range body =>
    .forLoop .none var.bare ⟨.none, range.low.bare, range.high.bare⟩ body.bare
  | .ret _ result => .ret .none (result.map Expr.bare)

@[inherit_doc Stmt.bare]
def Stmt.bareOther : Option Stmt → Option Stmt
  | none => none
  | some s => some s.bare

/-- A block without its positions. -/
def Block.bare : Block → Block
  | .mk _ stmts _ => .mk .none (Stmt.bareAll stmts) .none

@[inherit_doc Stmt.bare]
def Stmt.bareAll : List Stmt → List Stmt
  | [] => []
  | s :: rest => s.bare :: Stmt.bareAll rest

end

namespace TypeParamDecl

/-- A type parameter without its positions. -/
def bare (d : TypeParamDecl) : TypeParamDecl := ⟨d.name.bare, d.bound.map Ident.bare⟩

end TypeParamDecl

namespace FieldDecl

/-- A field without its positions. -/
def bare (d : FieldDecl) : FieldDecl := ⟨d.name.bare, d.type.bare⟩

end FieldDecl

namespace FuncDecl

/-- A function without its positions. -/
def bare (d : FuncDecl) : FuncDecl :=
  { pos := .none
    name := d.name.bare
    recv := d.recv.map Ident.bare
    tparams := d.tparams.map TypeParamDecl.bare
    params := d.params.map FieldDecl.bare
    result := d.result.map TypeExpr.bare
    body := d.body.map Block.bare
    host := d.host }

end FuncDecl

namespace Decl

/-- A declaration without its positions. -/
def bare : Decl → Decl
  | .cls d => .cls
      { pos := .none
        name := d.name.bare
        tparams := d.tparams.map TypeParamDecl.bare
        parent := d.parent.map Ident.bare
        fields := d.fields.map FieldDecl.bare
        methods := d.methods.map FuncDecl.bare }
  | .bound d => .bound ⟨.none, d.name.bare, d.methods.map FuncDecl.bare⟩
  | .func d => .func d.bare
  | .const d => .const ⟨.none, d.name.bare, d.type.bare, d.value.bare⟩

end Decl

namespace File

/-- A unit without its positions. -/
def bare (f : File) : File := ⟨f.name, .none, f.decls.map Decl.bare⟩

end File

/-! Terminals -/

namespace Grammar

/-- What a lexeme is to the grammar: names and literals have a spelling, and all other
tokens are their own spelling. -/
inductive Terminal where
  | name (text : String)
  | literal (kind : LitKind) (text : String)
  | mark (token : Token)
  deriving DecidableEq, Repr

namespace Terminal

/-- The token of a terminal. -/
def token : Terminal → Token
  | .name _ => .name
  | .literal _ _ => .literal
  | .mark t => t

end Terminal

/-- The token that a word starts with. -/
def headToken : List Terminal → Token
  | [] => .eof
  | t :: _ => t.token

/-- A name at no place. -/
def ident (text : String) : Ident := ⟨.none, text⟩

/-! Lists -/

/-- Parts separated by commas. A comma may follow the last one. -/
inductive Items (α : Type) where
  | none
  | last (x : α)
  | more (x : α) (rest : Items α)

/-- One or more parts separated by commas. -/
inductive Items1 (α : Type) where
  | last (x : α)
  | more (x : α) (rest : Items1 α)

section

variable {α : Type}

/-- The parts of a list. -/
def Items.toList : Items α → List α
  | .none => []
  | .last x => [x]
  | .more x rest => x :: rest.toList

@[inherit_doc Items.toList]
def Items1.toList : Items1 α → List α
  | .last x => [x]
  | .more x rest => x :: rest.toList

/-- What a list yields if its parts yield `f`. -/
def Items.yield (f : α → List Terminal) : Items α → List Terminal
  | .none => []
  | .last x => f x
  | .more x rest => f x ++ .mark .comma :: rest.yield f

@[inherit_doc Items.yield]
def Items1.yield (f : α → List Terminal) : Items1 α → List Terminal
  | .last x => f x
  | .more x rest => f x ++ .mark .comma :: rest.yield f

/-- What a part yields that may be missing, with what stands before it. -/
def optional (front : List Terminal) (f : α → List Terminal) : Option α → List Terminal
  | none => []
  | some x => front ++ f x

end

/-! Types -/

/-- The production of a type. -/
inductive Ty where
  | name (text : String)
  | apply (base : String) (args : Items1 Ty)

mutual

/-- The terminals of a derivation. -/
def Ty.yield : Ty → List Terminal
  | .name text => [.name text]
  | .apply base args => .name base :: .mark .lss :: (Ty.yieldAll args ++ [.mark .gtr])

@[inherit_doc Ty.yield]
def Ty.yieldAll : Items1 Ty → List Terminal
  | .last t => t.yield
  | .more t rest => t.yield ++ .mark .comma :: Ty.yieldAll rest

end

mutual

/-- The tree of a derivation. -/
def Ty.tree : Ty → TypeExpr
  | .name text => .name (ident text)
  | .apply base args => .apply (ident base) (Ty.treeAll args)

@[inherit_doc Ty.tree]
def Ty.treeAll : Items1 Ty → List TypeExpr
  | .last t => [t.tree]
  | .more t rest => t.tree :: Ty.treeAll rest

end

/-! Expressions -/

/-- The level of a binary operator. The operators of level one bind tightest. -/
def level : BinaryOp → Nat
  | .mul | .div | .rem => 1
  | .add | .sub => 2
  | .lss | .leq | .gtr | .geq => 3
  | .eql | .neq => 4
  | .and => 5
  | .or => 6

mutual

/-- The production of an expression with operators of the levels up to `n`. Operators of one
level group to the left. -/
inductive Binary : Nat → Type
  | unary (x : Unary) : Binary 0
  | lift {n : Nat} (x : Binary n) : Binary (n + 1)
  | op {n : Nat} (o : BinaryOp) (h : level o = n + 1) (x : Binary (n + 1)) (y : Binary n) :
      Binary (n + 1)

/-- The production of an operand with signs in front of it. -/
inductive Unary : Type
  | primary (x : Primary)
  | op (o : UnaryOp) (x : Unary)

/-- The production of an operand with calls and selections behind it. -/
inductive Primary : Type
  | operand (x : Operand)
  | call (fn : Primary)
  | callWith (fn : Primary) (args : Items1 (Binary 6))
  | select (x : Primary) (sel : String)

/-- The production of an operand. -/
inductive Operand : Type
  | name (text : String)
  | literal (kind : LitKind) (text : String)
  | paren (x : Binary 6)
  | init (cls : String) (elems : Items Elem)

/-- The production of an element of an initializer. -/
inductive Elem : Type
  | mk (key : String) (value : Binary 6)

end

/-- The production of an expression: it has operators of all six levels. -/
abbrev Expr : Type := Binary 6

mutual

/-- The terminals of a derivation. -/
def Binary.yield : {n : Nat} → Binary n → List Terminal
  | _, .unary x => x.yield
  | _, .lift x => x.yield
  | _, .op o _ x y => x.yield ++ .mark o.token :: y.yield

@[inherit_doc Binary.yield]
def Unary.yield : Unary → List Terminal
  | .primary x => x.yield
  | .op o x => .mark o.token :: x.yield

@[inherit_doc Binary.yield]
def Primary.yield : Primary → List Terminal
  | .operand x => x.yield
  | .call fn => fn.yield ++ [.mark .lparen, .mark .rparen]
  | .callWith fn args =>
    fn.yield ++ .mark .lparen :: (Binary.yieldAll args ++ [.mark .rparen])
  | .select x sel => x.yield ++ [.mark .dot, .name sel]

@[inherit_doc Binary.yield]
def Operand.yield : Operand → List Terminal
  | .name text => [.name text]
  | .literal kind text => [.literal kind text]
  | .paren x => .mark .lparen :: (x.yield ++ [.mark .rparen])
  | .init cls elems => .name cls :: .mark .colon :: .mark .kwInit :: .mark .lparen ::
      (Elem.yieldAll elems ++ [.mark .rparen])

@[inherit_doc Binary.yield]
def Elem.yield : Elem → List Terminal
  | .mk key value => .name key :: .mark .colon :: value.yield

@[inherit_doc Binary.yield]
def Binary.yieldAll : Items1 (Binary 6) → List Terminal
  | .last x => x.yield
  | .more x rest => x.yield ++ .mark .comma :: Binary.yieldAll rest

@[inherit_doc Binary.yield]
def Elem.yieldAll : Items Elem → List Terminal
  | .none => []
  | .last x => x.yield
  | .more x rest => x.yield ++ .mark .comma :: Elem.yieldAll rest

end

mutual

/-- The tree of a derivation. -/
def Binary.tree : {n : Nat} → Binary n → ClassLang.Expr
  | _, .unary x => x.tree
  | _, .lift x => x.tree
  | _, .op o _ x y => .binary o x.tree y.tree

@[inherit_doc Binary.tree]
def Unary.tree : Unary → ClassLang.Expr
  | .primary x => x.tree
  | .op o x => .unary .none o x.tree

@[inherit_doc Binary.tree]
def Primary.tree : Primary → ClassLang.Expr
  | .operand x => x.tree
  | .call fn => .call fn.tree []
  | .callWith fn args => .call fn.tree (Binary.treeAll args)
  | .select x sel => .select x.tree (ident sel)

@[inherit_doc Binary.tree]
def Operand.tree : Operand → ClassLang.Expr
  | .name text => .name (ident text)
  | .literal kind text => .literal .none kind text
  | .paren x => .paren .none x.tree
  | .init cls elems => .init (ident cls) (Elem.treeAll elems)

@[inherit_doc Binary.tree]
def Elem.tree : Elem → Ident × ClassLang.Expr
  | .mk key value => (ident key, value.tree)

@[inherit_doc Binary.tree]
def Binary.treeAll : Items1 (Binary 6) → List ClassLang.Expr
  | .last x => [x.tree]
  | .more x rest => x.tree :: Binary.treeAll rest

@[inherit_doc Binary.tree]
def Elem.treeAll : Items Elem → List (Ident × ClassLang.Expr)
  | .none => []
  | .last x => [x.tree]
  | .more x rest => x.tree :: Elem.treeAll rest

end

/-! Statements -/

mutual

/-- The production of a statement. -/
inductive Stmt : Type
  | empty
  | expr (x : Expr)
  | bind (name : String) (type : Ty) (value : Expr)
  | assign (lhs rhs : Expr)
  | block (body : Block)
  | ifElse (i : If)
  | whileLoop (cond : Expr) (body : Block)
  | forLoop (var : String) (low high : Expr) (body : Block)
  | ret (result : Option Expr)

/-- The production of a conditional. -/
inductive If : Type
  | mk (cond : Expr) (body : Block) (other : Else)

/-- The production of what follows the first block of a conditional. -/
inductive Else : Type
  | none
  | chain (i : If)
  | block (body : Block)

/-- The production of a block. -/
inductive Block : Type
  | mk (stmts : List Stmt)

end

mutual

/-- The terminals of a derivation. -/
def Stmt.yield : Stmt → List Terminal
  | .empty => [.mark .semi]
  | .expr x => x.yield ++ [.mark .semi]
  | .bind name type value => .mark .kwLet :: .name name :: .mark .colon ::
      (type.yield ++ .mark .assign :: (value.yield ++ [.mark .semi]))
  | .assign lhs rhs => lhs.yield ++ .mark .assign :: (rhs.yield ++ [.mark .semi])
  | .block body => body.yield
  | .ifElse i => i.yield
  | .whileLoop cond body => .mark .kwWhile :: (cond.yield ++ body.yield)
  | .forLoop var low high body => .mark .kwFor :: .name var :: .mark .kwIn :: .mark .lbrack ::
      (low.yield ++ .mark .comma :: (high.yield ++ .mark .rbrack :: body.yield))
  | .ret result => .mark .kwReturn :: (optional [] Binary.yield result ++ [.mark .semi])

@[inherit_doc Stmt.yield]
def If.yield : If → List Terminal
  | .mk cond body other => .mark .kwIf :: (cond.yield ++ (body.yield ++ other.yield))

@[inherit_doc Stmt.yield]
def Else.yield : Else → List Terminal
  | .none => []
  | .chain i => .mark .kwElse :: i.yield
  | .block body => .mark .kwElse :: body.yield

@[inherit_doc Stmt.yield]
def Block.yield : Block → List Terminal
  | .mk stmts => .mark .lbrace :: (Stmt.yieldAll stmts ++ [.mark .rbrace])

@[inherit_doc Stmt.yield]
def Stmt.yieldAll : List Stmt → List Terminal
  | [] => []
  | s :: rest => s.yield ++ Stmt.yieldAll rest

end

mutual

/-- The tree of a derivation. -/
def Stmt.tree : Stmt → ClassLang.Stmt
  | .empty => .empty .none
  | .expr x => .expr x.tree
  | .bind name type value => .bind .none (ident name) type.tree value.tree
  | .assign lhs rhs => .assign lhs.tree rhs.tree
  | .block body => .block body.tree
  | .ifElse i => i.tree
  | .whileLoop cond body => .whileLoop .none cond.tree body.tree
  | .forLoop var low high body =>
    .forLoop .none (ident var) ⟨.none, low.tree, high.tree⟩ body.tree
  | .ret result => .ret .none (result.map Binary.tree)

@[inherit_doc Stmt.tree]
def If.tree : If → ClassLang.Stmt
  | .mk cond body other => .ifElse .none cond.tree body.tree other.tree

@[inherit_doc Stmt.tree]
def Else.tree : Else → Option ClassLang.Stmt
  | .none => none
  | .chain i => some i.tree
  | .block body => some (.block body.tree)

@[inherit_doc Stmt.tree]
def Block.tree : Block → ClassLang.Block
  | .mk stmts => .mk .none (Stmt.treeAll stmts) .none

@[inherit_doc Stmt.tree]
def Stmt.treeAll : List Stmt → List ClassLang.Stmt
  | [] => []
  | s :: rest => s.tree :: Stmt.treeAll rest

end

/-! Declarations -/

/-- The production of a type parameter. -/
structure TParam where
  name : String
  bound : Option String

/-- The production of a field or parameter. -/
structure Field where
  name : String
  type : Ty

/-- The production of the parameters of a function, and of a method, whose first one is the
receiver. -/
inductive Params : Bool → Type
  | plain (params : Items Field) : Params false
  | receiver (self : String) : Params true
  | receiverWith (self : String) (params : Items Field) : Params true

/-- The production of the header of a function, or of a method. -/
structure Header (member : Bool) where
  name : String
  tparams : Option (Items TParam)
  params : Params member
  result : Option Ty

/-- The production of a function or of a method. -/
structure Func (member : Bool) where
  header : Header member
  body : Block

/-- The production of a declaration. -/
inductive Decl where
  | cls (name : String) (tparams : Option (Items TParam)) (parent : Option String)
      (fields : Items Field) (methods : List (Func true))
  | bound (name : String) (methods : List (Header true))
  | func (f : Func false)
  | host (header : Header false) (semi : Bool)
  | const (name : String) (type : Ty) (value : Expr)

namespace TParam

/-- The terminals of a derivation. -/
def yield (d : TParam) : List Terminal :=
  .name d.name :: optional [.mark .colon] (fun b => [.name b]) d.bound

/-- The tree of a derivation. -/
def tree (d : TParam) : TypeParamDecl := ⟨ident d.name, d.bound.map ident⟩

/-- The terminals of a list of type parameters that may be missing. -/
def listYield : Option (Items TParam) → List Terminal :=
  optional [.mark .lss] fun ds => ds.yield TParam.yield ++ [.mark .gtr]

/-- The trees of a list of type parameters that may be missing. -/
def listTree (ds : Option (Items TParam)) : List TypeParamDecl :=
  (ds.map fun ds => ds.toList.map TParam.tree).getD []

end TParam

namespace Field

/-- The terminals of a derivation. -/
def yield (d : Field) : List Terminal := .name d.name :: .mark .colon :: d.type.yield

/-- The tree of a derivation. -/
def tree (d : Field) : FieldDecl := ⟨ident d.name, d.type.tree⟩

end Field

namespace Params

variable {member : Bool}

/-- The terminals of a derivation. -/
def yield : Params member → List Terminal
  | .plain params => params.yield Field.yield
  | .receiver self => [.name self]
  | .receiverWith self params => .name self :: .mark .comma :: params.yield Field.yield

/-- The receiver among the parameters. -/
def recv : Params member → Option Ident
  | .plain _ => none
  | .receiver self | .receiverWith self _ => some (ident self)

/-- The parameters without the receiver. -/
def fields : Params member → List FieldDecl
  | .plain params | .receiverWith _ params => params.toList.map Field.tree
  | .receiver _ => []

end Params

namespace Header

variable {member : Bool}

/-- The terminals of a derivation. -/
def yield (d : Header member) : List Terminal :=
  .mark .kwFun :: .name d.name :: (TParam.listYield d.tparams ++ .mark .lparen ::
    (d.params.yield ++ .mark .rparen :: optional [.mark .colon] Ty.yield d.result))

/-- The tree of a derivation. -/
def tree (d : Header member) : FuncDecl :=
  { pos := .none
    name := ident d.name
    recv := d.params.recv
    tparams := TParam.listTree d.tparams
    params := d.params.fields
    result := d.result.map Ty.tree
    body := none
    host := false }

end Header

namespace Func

variable {member : Bool}

/-- The terminals of a derivation. -/
def yield (d : Func member) : List Terminal := d.header.yield ++ d.body.yield

/-- The tree of a derivation. -/
def tree (d : Func member) : FuncDecl := { d.header.tree with body := some d.body.tree }

end Func

namespace Decl

/-- The terminals of a derivation. -/
def yield : Decl → List Terminal
  | .cls name tparams parent fields methods => .mark .kwClass :: .name name ::
      (TParam.listYield tparams ++ (optional [.mark .colon] (fun p => [.name p]) parent ++
        .mark .lbrace :: (fields.yield Field.yield ++
          (methods.flatMap Func.yield ++ [.mark .rbrace]))))
  | .bound name methods => .mark .kwBound :: .name name :: .mark .lbrace ::
      (methods.flatMap (fun m => m.yield ++ [.mark .semi]) ++ [.mark .rbrace])
  | .func f => f.yield
  | .host header semi => .mark .kwExtern :: (header.yield ++ if semi then [.mark .semi] else [])
  | .const name type value => .mark .kwConst :: .name name :: .mark .colon ::
      (type.yield ++ .mark .assign :: (value.yield ++ [.mark .semi]))

/-- The tree of a derivation. -/
def tree : Decl → ClassLang.Decl
  | .cls name tparams parent fields methods => .cls
      { pos := .none
        name := ident name
        tparams := TParam.listTree tparams
        parent := parent.map ident
        fields := fields.toList.map Field.tree
        methods := methods.map Func.tree }
  | .bound name methods => .bound ⟨.none, ident name, methods.map Header.tree⟩
  | .func f => .func f.tree
  | .host header _ => .func { header.tree with host := true }
  | .const name type value => .const ⟨.none, ident name, type.tree, value.tree⟩

end Decl

/-- A derivation of a whole unit. -/
structure Derivation where
  decls : List Decl

namespace Derivation

/-- The terminals of a derivation. -/
def yield (d : Derivation) : List Terminal := d.decls.flatMap Decl.yield

/-- The tree of a derivation, for a unit of a given name. -/
def tree (name : String) (d : Derivation) : File := ⟨name, .none, d.decls.map Decl.tree⟩

end Derivation

/-! Lists of derivations -/

theorem Ty.yieldAll_eq (ts : Items1 Ty) : Ty.yieldAll ts = ts.yield Ty.yield := by
  induction ts with
  | last t => rfl
  | more t rest ih => rw [Ty.yieldAll, Items1.yield, ih]

theorem Ty.treeAll_eq (ts : Items1 Ty) : Ty.treeAll ts = ts.toList.map Ty.tree := by
  induction ts with
  | last t => rfl
  | more t rest ih => rw [Ty.treeAll, Items1.toList, List.map_cons, ih]

theorem Binary.yieldAll_eq (xs : Items1 Expr) : Binary.yieldAll xs = xs.yield Binary.yield := by
  induction xs with
  | last x => rfl
  | more x rest ih => rw [Binary.yieldAll, Items1.yield, ih]

theorem Binary.treeAll_eq (xs : Items1 Expr) :
    Binary.treeAll xs = xs.toList.map Binary.tree := by
  induction xs with
  | last x => rfl
  | more x rest ih => rw [Binary.treeAll, Items1.toList, List.map_cons, ih]

theorem Elem.yieldAll_eq (es : Items Elem) : Elem.yieldAll es = es.yield Elem.yield := by
  induction es with
  | none => rfl
  | last e => rfl
  | more e rest ih => rw [Elem.yieldAll, Items.yield, ih]

theorem Elem.treeAll_eq (es : Items Elem) : Elem.treeAll es = es.toList.map Elem.tree := by
  induction es with
  | none => rfl
  | last e => rfl
  | more e rest ih => rw [Elem.treeAll, Items.toList, List.map_cons, ih]

theorem Stmt.yieldAll_eq (ss : List Stmt) : Stmt.yieldAll ss = ss.flatMap Stmt.yield := by
  induction ss with
  | nil => rfl
  | cons s rest ih => rw [Stmt.yieldAll, List.flatMap_cons, ih]

theorem Stmt.treeAll_eq (ss : List Stmt) : Stmt.treeAll ss = ss.map Stmt.tree := by
  induction ss with
  | nil => rfl
  | cons s rest ih => rw [Stmt.treeAll, List.map_cons, ih]

/-! No derivation of a statement or declaration is empty. -/

theorem Stmt.yield_ne_nil (s : Stmt) : s.yield ≠ [] := by
  cases s with
  | block body =>
      cases body
      simp [Stmt.yield, Block.yield]
  | ifElse i =>
      cases i
      simp [Stmt.yield, If.yield]
  | _ => simp [Stmt.yield]

theorem Decl.yield_ne_nil (d : Decl) : d.yield ≠ [] := by
  cases d <;> simp [Decl.yield, Func.yield, Header.yield]

end Grammar

theorem TypeExpr.bareAll_eq (ts : List TypeExpr) : TypeExpr.bareAll ts = ts.map bare := by
  induction ts with
  | nil => rfl
  | cons t rest ih => rw [bareAll, List.map_cons, ih]

theorem Expr.bareAll_eq (xs : List Expr) : Expr.bareAll xs = xs.map bare := by
  induction xs with
  | nil => rfl
  | cons x rest ih => rw [bareAll, List.map_cons, ih]

theorem Expr.bareElems_eq (es : List (Ident × Expr)) :
    Expr.bareElems es = es.map fun e => (e.1.bare, e.2.bare) := by
  induction es with
  | nil => rfl
  | cons e rest ih => rw [bareElems, List.map_cons, ih]

theorem Stmt.bareAll_eq (ss : List Stmt) : Stmt.bareAll ss = ss.map bare := by
  induction ss with
  | nil => rfl
  | cons s rest ih => rw [bareAll, List.map_cons, ih]

end ClassLang

import ClassLang.Check.Expr

/-!
Checking of statements. A statement may declare a name in the scope it stands
in, so each check takes that scope and gives it back with what was added.
-/

namespace ClassLang

mutual

/-- Whether a statement returns on every path. A loop may be left without. -/
def Stmt.mustReturn : Stmt → Bool
  | .ret .. => true
  | .block body => body.mustReturn
  | .ifElse _ _ body other => body.mustReturn && Stmt.mustReturnOther other
  | _ => false

/-- Whether there is an alternative that returns on every path. -/
def Stmt.mustReturnOther : Option Stmt → Bool
  | some s => s.mustReturn
  | none => false

/-- Whether a block returns on every path. -/
def Block.mustReturn : Block → Bool
  | .mk _ stmts _ => Stmt.mustReturnAny stmts

/-- Whether one of several statements returns on every path. -/
def Stmt.mustReturnAny : List Stmt → Bool
  | [] => false
  | s :: rest => s.mustReturn || Stmt.mustReturnAny rest

end

namespace Check

/-- Where a statement stands: the environment around its scope, the constants,
and the result type of the function. -/
structure Place where
  env : Env
  consts : ConstSource
  result : Ty

namespace Place

/-- Checks an expression in the scope `s` of a place. -/
def operand (p : Place) (s : Scope Symbol) (e : Expr) : Check (Option Operand) :=
  Check.operand (p.env.enter s) p.consts e

/-- The place inside the scope `s`. -/
def enter (p : Place) (s : Scope Symbol) : Place := { p with env := p.env.enter s }

end Place

/-- A statement that declares a local. Its value is checked before the name is
known, and the name is declared even if the value does not fit. -/
def bindStmt (p : Place) (s : Scope Symbol) (pos : Pos) (name : Ident) (type : TypeExpr)
    (value : Expr) : Check (Scope Symbol × Option Typed.Stmt) := do
  let term ← varType (p.env.enter s) type
  let x ← p.operand s value
  let v : Var := ⟨name.text, name.pos, .localVar, tyOf term⟩
  let stmt ←
    match term, x with
    | some term, some x =>
      if ← assignable p.env.table x term.ty "let statement" then
        pure (some (.bind pos v term x.expr))
      else pure none
    | _, _ => pure none
  return (← declare s name (.var v), stmt)

/-- The word for an expression that cannot be assigned to. -/
def fixedWord (e : Typed.Expr) : String :=
  match e.unparen with
  | .var _ v => if v.kind = .recv then "receiver" else "value"
  | .const .. => "constant"
  | _ => "value"

/-- An assignment to a local, a parameter or a field. -/
def assignStmt (p : Place) (s : Scope Symbol) (lhs rhs : Expr) :
    Check (Option Typed.Stmt) := do
  let x ← p.operand s lhs
  let y ← p.operand s rhs
  match x, y with
  | none, _ => return none
  | some x, y =>
    if !x.expr.isVariable then
      fail .typeMismatch lhs.pos s!"cannot assign to {fixedWord x.expr} {x.text}"
    else
      match y with
      | none => return none
      | some y =>
        if ← assignable p.env.table y x.ty "assignment" then
          return some (.assign x.expr y.expr)
        else return none

/-- Whether an expression is a call. -/
def isCall : Typed.Expr → Bool
  | .call .. | .invoke .. => true
  | _ => false

/-- An expression that stands as a statement must be a call. -/
def exprStmt (p : Place) (s : Scope Symbol) (e : Expr) : Check (Option Typed.Stmt) := do
  match ← p.operand s e with
  | none => return none
  | some x =>
    if isCall x.expr.unparen then return some (.expr x.expr)
    else fail .typeMismatch e.pos s!"{x.text} is not used"

/-- The condition of a statement, which must be a truth value. -/
def condition (p : Place) (s : Scope Symbol) (e : Expr) (statement : String) :
    Check (Option Typed.Expr) := do
  match ← p.operand s e with
  | none => return none
  | some x =>
    if !(← hasValue x) then return none
    if x.ty.isBool then return some x.expr
    fail .typeMismatch e.pos
      s!"non-boolean condition in {statement} statement (type {x.ty.text})"

/-- A bound of a counting loop, which must be an integer. -/
def loopBound (p : Place) (s : Scope Symbol) (e : Expr) : Check (Option Typed.Expr) := do
  match ← p.operand s e with
  | none => return none
  | some x =>
    if !(← hasValue x) then return none
    if x.ty.isInt then return some x.expr
    fail .typeMismatch e.pos s!"for range bound {x.text} must be int, not {x.ty.text}"

/-- A return, with a value exactly if the function has a result. -/
def returnStmt (p : Place) (s : Scope Symbol) (pos : Pos) :
    Option Expr → Check (Option Typed.Stmt)
  | none =>
    if p.result.isVoid then return some (.ret pos none)
    else fail .typeMismatch pos
      s!"not enough return values\n\thave ()\n\twant ({p.result.text})"
  | some e => do
    match ← p.operand s e with
    | none => return none
    | some x =>
      if p.result.isVoid then
        fail .typeMismatch e.pos s!"too many return values\n\thave ({x.ty.text})\n\twant ()"
      else if ← assignable p.env.table x p.result "return statement" then
        return some (.ret pos (some x.expr))
      else return none

mutual

/-- Checks a statement in the scope `s`. -/
def stmt (p : Place) (s : Scope Symbol) : Stmt → Check (Scope Symbol × Option Typed.Stmt)
  | .empty pos => return (s, some (.empty pos))
  | .expr x => return (s, ← exprStmt p s x)
  | .bind pos name type value => bindStmt p s pos name type value
  | .assign lhs rhs => return (s, ← assignStmt p s lhs rhs)
  | .block body => do
    let (s, body) ← block p s body
    return (s, body.map .block)
  | .ifElse _ cond body other => do
    let cond ← condition p s cond "if"
    let (s, body) ← block p s body
    let (s, other) ← alternative p s other
    match cond, body, other with
    | some cond, some body, some other => return (s, some (.ifElse cond body other))
    | _, _, _ => return (s, none)
  | .whileLoop _ cond body => do
    let cond ← condition p s cond "while"
    let (s, body) ← block p s body
    match cond, body with
    | some cond, some body => return (s, some (.whileLoop cond body))
    | _, _ => return (s, none)
  | .forLoop pos var range body => do
    let low ← loopBound p s range.low
    let high ← loopBound p s range.high
    let v : Var := ⟨var.text, var.pos, .localVar, .int⟩
    let loop ← declare { label := "for" } var (.var v)
    let (loop, body) ← block (p.enter s) loop body
    match low, high, body with
    | some low, some high, some body =>
      return (s.nest loop, some (.forLoop pos v range.pos low high body))
    | _, _, _ => return (s.nest loop, none)
  | .ret pos result => return (s, ← returnStmt p s pos result)

/-- Checks an alternative, if there is one. -/
def alternative (p : Place) (s : Scope Symbol) :
    Option Stmt → Check (Scope Symbol × Option (Option Typed.Stmt))
  | none => return (s, some none)
  | some other => do
    let (s, other) ← stmt p s other
    return (s, other.map some)

/-- Checks a block in a scope of its own, which is put into `s`. -/
def block (p : Place) (s : Scope Symbol) : Block → Check (Scope Symbol × Option Typed.Block)
  | .mk _ list _ => do
    let (inner, list) ← stmts (p.enter s) { label := "block" } list
    return (s.nest inner, list.map .mk)

/-- Checks statements from first to last, and stops when an error was dropped. -/
def stmts (p : Place) (s : Scope Symbol) :
    List Stmt → Check (Scope Symbol × Option (List Typed.Stmt))
  | [] => return (s, some [])
  | x :: rest => do
    if ← full then return (s, none)
    let (s, x) ← stmt p s x
    let (s, rest) ← stmts p s rest
    match x, rest with
    | some x, some rest => return (s, some (x :: rest))
    | _, _ => return (s, none)

end

/-- Checks the body of the function called `name`, whose parameters are declared
in `s`. A function with a result must not reach its closing brace. -/
def body (p : Place) (s : Scope Symbol) (name : String) (b : Block) :
    Check (Scope Symbol × Option Typed.Block) := do
  let (s, list) ← stmts p s b.stmts
  if !p.result.isVoid && !b.mustReturn then
    report .typeMismatch b.close s!"missing return statement in {name}"
    return (s, none)
  return (s, list.map .mk)

end Check

end ClassLang

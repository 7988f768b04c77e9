import ClassLang.Check.Infer

/-!
Checking of expressions. Each expression is given its type, and its value if it
is constant. An expression that has no type has caused an error, here or where
what it depends on was declared.
-/

namespace ClassLang.Check

/-- How the value of a named constant is found. -/
abbrev ConstSource := String → Check (Option (Ty × Constant))

/-- The checked expression for a constant, unless it is an integer out of range. -/
def inRange (pos : Pos) (c : Constant) (e : Typed.Expr) : Check (Option Typed.Expr) :=
  if c.overflows then
    fail .typeMismatch pos s!"constant {c.text} overflows int"
  else
    return some e

/-- What a name means as an expression. -/
def name (env : Env) (consts : ConstSource) (id : Ident) : Check (Option Typed.Expr) := do
  match env.lookup id.text with
  | none => fail .unknownType id.pos s!"undefined: {id.text}"
  | some (.var v) => return if v.ty.isInvalid then none else some (.var id v)
  | some (.truth b) => return some (.const id (.truth b) .bool (.bool b))
  | some (.const c) =>
    match ← consts c.text with
    | some (ty, value) => return some (.const id (.const c) ty value)
    | none => return none
  | some (.bound _) => fail .typeMismatch id.pos s!"{id.text} is a bound, not a value"
  | some (.func ..) => fail .typeMismatch id.pos s!"function {id.text} must be called"
  | some _ => fail .typeMismatch id.pos s!"{id.text} is a type, not a value"

/-- The value of a literal. -/
def literal (pos : Pos) (kind : LitKind) (text : String) : Check (Option Typed.Expr) :=
  match kind with
  | .int =>
    match Constant.ofIntLiteral? text with
    | none => fail .typeMismatch pos s!"invalid integer literal {text}"
    | some n => inRange pos (.int n) (.literal pos kind text .int (.int n))
  | .float =>
    match Constant.ofFloatLiteral? text with
    | none => fail .typeMismatch pos s!"invalid float literal {text}"
    | some q => return some (.literal pos kind text .float (.float q))
  | .string => return some (.literal pos kind text .str (.str text))

/-- An operation on the operand `x` that starts at `pos`. -/
def unaryOp (pos : Pos) (op : UnaryOp) (x : Operand) : Check (Option Typed.Expr) := do
  if !(← hasValue x) then return none
  let defined :=
    match op with
    | .not => x.ty.isBool
    | .neg => x.ty.isNumeric
  if !defined then
    fail .typeMismatch pos
      (s!"invalid operation: operator {op.token.text} not defined on "
        ++ s!"{x.text} (type {x.ty.text})")
  else
    match x.expr.value?.bind (Constant.unary op) with
    | some c => inRange pos c (.unary pos op x.expr x.ty (some c))
    | none => return some (.unary pos op x.expr x.ty none)

/-- Whether an operator is defined on operands of a type. -/
def BinaryOp.defined (op : BinaryOp) (t : Ty) : Bool :=
  match op with
  | .or | .and => t.isBool
  | .eql | .neq => t.isBasic
  | .lss | .leq | .gtr | .geq => t.isNumeric
  | .rem => t.isInt
  | .add | .sub | .mul | .div => t.isNumeric

/-- The type of the result of an operator on operands of a type. -/
def BinaryOp.result (op : BinaryOp) (t : Ty) : Ty :=
  if op.token.isComparison then .bool else t

/-- An operation on two operands. There are no implicit conversions. -/
def binaryOp (op : BinaryOp) (x y : Operand) : Check (Option Typed.Expr) := do
  if !(← hasValue x) then return none
  if !(← hasValue y) then return none
  let pos := x.expr.pos
  let text := op.token.text
  if !x.ty.identical y.ty then
    fail .typeMismatch pos
      (s!"invalid operation: mismatched types {x.ty.text} and {y.ty.text} in "
        ++ s!"{x.text} {text} {y.text}")
  else if !BinaryOp.defined op x.ty then
    fail .typeMismatch pos
      s!"invalid operation: operator {text} not defined on {x.text} (type {x.ty.text})"
  else
    let result := BinaryOp.result op x.ty
    match x.expr.value?, y.expr.value? with
    | some a, some b =>
      if (op = .div || op = .rem) && b.isZero then
        fail .typeMismatch y.pos "invalid operation: division by zero"
      else
        match Constant.binary op a b with
        | some c => inRange pos c (.binary op x.expr y.expr result (some c))
        | none => return some (.binary op x.expr y.expr result none)
    | _, _ => return some (.binary op x.expr y.expr result none)

/-- The selection of a field. -/
def selection (env : Env) (x : Operand) (sel : Ident) : Check (Option Typed.Expr) := do
  if !(← hasValue x) then return none
  let undefined (why : String) : Check (Option Typed.Expr) :=
    fail .unknownField sel.pos s!"{x.text}.{sel.text} undefined ({why})"
  match x.ty with
  | .param p => undefined s!"type parameter {p.name} has no fields"
  | t =>
    match t.className?.bind env.table.classNamed? with
    | none => undefined s!"type {t.text} has no fields"
    | some c =>
      match env.table.lookupField c.id sel.text with
      | some f =>
        let ty :=
          match t with
          | .inst _ targs => f.ty.subst c.tparams targs
          | _ => f.ty
        return some (.field x.expr sel f ty)
      | none =>
        if (env.table.lookupMethod c.id sel.text).isSome then
          fail .typeMismatch sel.pos s!"method {c.name}.{sel.text} must be called"
        else
          undefined s!"type {t.text} has no field {sel.text}"

/-- Whether the operands of a call fit its signature. -/
def arguments (env : Env) (pos : Pos) (callee : String) (sig : Signature)
    (args : List Operand) : Check Bool := do
  if args.length ≠ sig.params.length then
    let amount := if args.length < sig.params.length then "not enough" else "too many"
    let types := ", ".intercalate (args.map (·.ty.text))
    report .typeMismatch pos
      s!"{amount} arguments in call to {callee}\n\thave ({types})\n\twant {sig.text}"
    return false
  assignableAll env.table
    ((args.zip sig.paramTypes).map fun (x, t) => (x, t, "argument to " ++ callee))

/-- A call of the function `fn` with signature `sig`. -/
def funcCall (env : Env) (fn : Ident) (sym : Symbol) (sig : Signature)
    (args : Option (List Operand)) : Check (Option Typed.Expr) := do
  match args with
  | none => return none
  | some args =>
    let solved ←
      if sig.tparams.isEmpty then pure (some [])
      else infer env fn.pos fn.text sig.tparams sig.paramTypes args
    match solved with
    | none => return none
    | some targs =>
      let sig := sig.subst sig.tparams targs
      if ← arguments env fn.pos fn.text sig args then
        return some (.call fn sym targs sig (args.map (·.expr)))
      else
        return none

/-- How a call of method `name` on class `id` finds its target: virtually if
more than one class of its hierarchy implements it. -/
def dispatch (table : Table) (id : Nat) (name : String) : CallKind :=
  if 1 < (table.implementations id name).length then .virtual else .direct

/-- The method that a call on a receiver selects, with the kind of the call and
the signature seen by it. The error for a method that does not exist is
reported. -/
def target (env : Env) (x : Operand) (sel : Ident) :
    Check (Option (CallKind × Method × Signature)) := do
  let unknown (why : String) : Check (Option (CallKind × Method × Signature)) :=
    fail .unknownMethod sel.pos s!"{x.text}.{sel.text} undefined ({why})"
  match x.ty with
  | .param p =>
    let cannot := s!"cannot call method {sel.text} on {x.text}: "
    match p.bound.bind env.table.boundNamed? with
    | none =>
      fail .unsatisfiedBound sel.pos s!"{cannot}type parameter {p.name} has no bound"
    | some b =>
      match b.method? sel.text with
      | some m => return some (.bound, m, m.sig)
      | none =>
        fail .unsatisfiedBound sel.pos
          s!"{cannot}bound {b.name} of {p.name} has no method {sel.text}"
  | t =>
    match t.className?.bind env.table.classNamed? with
    | none => unknown s!"type {t.text} has no methods"
    | some c =>
      match env.table.lookupMethod c.id sel.text with
      | none => unknown s!"type {t.text} has no method {sel.text}"
      | some m =>
        let sig :=
          match t with
          | .inst _ targs => m.sig.subst c.tparams targs
          | _ => m.sig
        return some (dispatch env.table c.id sel.text, m, sig)

/-- A call of the method that `target` found. -/
def methodCall (env : Env) (x : Operand) (sel : Ident)
    (found : CallKind × Method × Signature) (args : Option (List Operand)) :
    Check (Option Typed.Expr) := do
  let (kind, m, sig) := found
  match args with
  | none => return none
  | some args =>
    if ← arguments env x.expr.pos m.fullName sig args then
      return some (.invoke x.expr sel kind m sig (args.map (·.expr)))
    else
      return none

/-- The state of an initializer while its elements are read: the values of the
fields given so far, and whether all is well. -/
structure Filling where
  given : List (String × Operand) := []
  ok : Bool := true

/-- Takes the element `key` of an initializer of class `cls`. -/
def fillField (cls : String) (fields : List Field) (filling : Filling) (key : Ident)
    (value : Option Operand) : Check Filling := do
  let bad := { filling with ok := false }
  if !fields.any (·.name = key.text) then
    report .unknownInitializerField key.pos s!"unknown field {key.text} in {cls} initializer"
    return bad
  else if filling.given.any (·.1 = key.text) then
    report .duplicateInitializerField key.pos
      s!"duplicate field {key.text} in {cls} initializer"
    return bad
  else
    match value with
    | none =>
      return { given := filling.given ++ [(key.text, ⟨"", default⟩)], ok := false }
    | some x =>
      let ok ← hasValue x
      return { given := filling.given ++ [(key.text, x)], ok := filling.ok && ok }

/-- An initializer whose elements have been read. Every field must be given, and
every value must fit. -/
def initialized (env : Env) (cls : Ident) (sym : Symbol) (c : ClassInfo)
    (filling : Filling) (elems : List (Ident × Typed.Expr)) : Check (Option Typed.Expr) := do
  let fields := env.table.flatFields c.id
  let missing := fields.filter fun f => !filling.given.any (·.1 = f.name)
  if !missing.isEmpty then
    let names := ", ".intercalate (missing.map (·.name))
    report .incompleteInitializer cls.pos s!"{c.name} initializer is missing {names}"
    return none
  if !filling.ok then return none
  let operands := fields.filterMap fun f => filling.given.lookup f.name
  let solved ←
    if c.isGeneric then infer env cls.pos c.name c.tparams (fields.map (·.ty)) operands
    else pure (some [])
  match solved with
  | none => return none
  | some targs =>
    let fits ← assignableAll env.table ((fields.zip operands).map fun (f, x) =>
      (x, f.ty.subst c.tparams targs, s!"field {f.name} of {c.name}"))
    if fits then
      let ty := if c.isGeneric then Ty.inst c.name targs else .cls c.name
      return some (.init cls sym ty fields elems)
    else
      return none

mutual

/-- Checks an expression. -/
def expr (env : Env) (consts : ConstSource) : Expr → Check (Option Typed.Expr)
  | .name id => name env consts id
  | .literal pos kind text => literal pos kind text
  | .unary pos op x => do
    match ← operand env consts x with
    | none => return none
    | some x => unaryOp pos op x
  | .binary op x y => do
    let x ← operand env consts x
    let y ← operand env consts y
    match x, y with
    | some x, some y => binaryOp op x y
    | some x, none =>
      discard (hasValue x)
      return none
    | none, _ => return none
  | .call (.name fn) args => do
    match env.lookup fn.text with
    | some (.func id host) =>
      let xs ← operands env consts args
      match env.funcs.lookup fn.text with
      | some sig => funcCall env fn (.func id host) sig xs
      | none => return none
    | found =>
      if found.isNone then
        report .unknownMethod fn.pos s!"undefined function: {fn.text}"
      else
        report .typeMismatch fn.pos s!"cannot call non-function {fn.text}"
      discard (operands env consts args)
      return none
  | .call (.select x sel) args => do
    match ← operand env consts x with
    | none =>
      discard (operands env consts args)
      return none
    | some x =>
      if !(← hasValue x) then
        discard (operands env consts args)
        return none
      match ← target env x sel with
      | none =>
        discard (operands env consts args)
        return none
      | some found =>
        let xs ← operands env consts args
        methodCall env x sel found xs
  | .call fn args => do
    report .typeMismatch fn.pos s!"cannot call {fn.text}"
    discard (operands env consts args)
    return none
  | .select x sel => do
    match ← operand env consts x with
    | none => return none
    | some x => selection env x sel
  | .init cls elems => do
    match env.lookup cls.text with
    | some (.cls id) =>
      match env.table.classNamed? id.text with
      | some c =>
        let (filling, values) ←
          elements env consts c.name (env.table.flatFields c.id) {} elems
        initialized env cls (.cls id) c filling values
      | none => return none
    | some (.basic _) | some (.typeParam ..) =>
      report .typeMismatch cls.pos s!"{cls.text} is not a class"
      elementValues env consts elems
      return none
    | _ =>
      report .unknownType cls.pos s!"undefined: {cls.text}"
      elementValues env consts elems
      return none
  | .paren pos x => do
    match ← expr env consts x with
    | none => return none
    | some x => return some (.paren pos x)
termination_by e => 2 * sizeOf e
decreasing_by
  all_goals
    simp only [Expr.unary.sizeOf_spec, Expr.binary.sizeOf_spec,
      Expr.call.sizeOf_spec, Expr.select.sizeOf_spec, Expr.init.sizeOf_spec, Expr.paren.sizeOf_spec]
    omega

/-- Checks an expression and keeps its source form. -/
def operand (env : Env) (consts : ConstSource) (e : Expr) : Check (Option Operand) := do
  match ← expr env consts e with
  | none => return none
  | some x => return some ⟨e.text, x⟩
termination_by 2 * sizeOf e + 1
decreasing_by omega

/-- Checks the arguments of a call, each of which must have a value. All of them
are looked at. -/
def operands (env : Env) (consts : ConstSource) : List Expr → Check (Option (List Operand))
  | [] => return some []
  | e :: rest => do
    let x ← operand env consts e
    let ok ←
      match x with
      | some x => hasValue x
      | none => pure false
    let xs ← operands env consts rest
    match x, xs with
    | some x, some xs => return if ok then some (x :: xs) else none
    | _, _ => return none
termination_by es => 2 * sizeOf es
decreasing_by all_goals (simp only [List.cons.sizeOf_spec]; omega)

/-- Checks the elements of an initializer from left to right. -/
def elements (env : Env) (consts : ConstSource) (cls : String) (fields : List Field)
    (filling : Filling) :
    List (Ident × Expr) → Check (Filling × List (Ident × Typed.Expr))
  | [] => return (filling, [])
  | (key, value) :: rest => do
    let x ← operand env consts value
    let filling ← fillField cls fields filling key x
    let (filling, values) ← elements env consts cls fields filling rest
    return (filling, (x.toList.map fun x => (key, x.expr)) ++ values)
termination_by es => 2 * sizeOf es
decreasing_by
  all_goals (simp only [List.cons.sizeOf_spec, Prod.mk.sizeOf_spec]; omega)

/-- Checks the values of an initializer whose class is not known. -/
def elementValues (env : Env) (consts : ConstSource) : List (Ident × Expr) → Check Unit
  | [] => return
  | (_, value) :: rest => do
    discard (expr env consts value)
    elementValues env consts rest
termination_by es => 2 * sizeOf es
decreasing_by
  all_goals (simp only [List.cons.sizeOf_spec, Prod.mk.sizeOf_spec]; omega)

end

end ClassLang.Check

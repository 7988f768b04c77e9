import ClassLang.Check.Session

/-!
Checking of types, and of the headers of functions.
-/

namespace ClassLang.Check

open Typed (TypeTerm TypeParamTerm Header)

/-- Whether `ty` has every method of the bound, with an error if it has not. -/
def satisfies (table : Table) (pos : Pos) (ty : Ty) (bound : String) : Check Bool := do
  match table.boundNamed? bound with
  | none => return true
  | some b =>
    match table.missingMethod? ty b with
    | none => return true
    | some m =>
      match table.methodSignature? ty m.name with
      | some sig =>
        report .unsatisfiedBound pos
          (s!"{ty.text} does not satisfy {bound} (wrong signature for method {m.name})"
            ++ s!"\n\thave {sig.text}\n\twant {m.sig.text}")
      | none =>
        report .unsatisfiedBound pos
          s!"{ty.text} does not satisfy {bound} (missing method {m.name})"
      return false

/-- Whether a type argument is a class that satisfies the bound of its
parameter. While members are collected the bound is put off. -/
def typeArg (env : Env) (pos : Pos) (p : TypeParam) (arg : Ty) : Check Bool := do
  if !arg.isReference then
    report .typeMismatch pos s!"type argument {arg.text} for {p.name} is not a class"
    return false
  match p.bound with
  | none => return true
  | some b =>
    if env.collecting then
      modify fun s => { s with duties := s.duties ++ [⟨pos, arg, b⟩] }
      return true
    else
      satisfies env.table pos arg b

/-- Whether all type arguments are admitted. Each one is looked at. -/
def typeArgs (env : Env) (pos : Pos) : List (TypeParam × Ty) → Check Bool
  | [] => return true
  | (p, arg) :: rest => do
    let ok ← typeArg env pos p arg
    let others ← typeArgs env pos rest
    return ok && others

mutual

/-- The type that a type expression stands for. -/
def type (env : Env) : TypeExpr → Check (Option TypeTerm)
  | .name id => do
    match env.lookup id.text with
    | none => fail .unknownType id.pos s!"undefined: {id.text}"
    | some (.basic t) => return some (.name id (.basic t) t)
    | some (.typeParam p pos) => return some (.name id (.typeParam p pos) (.param p))
    | some (.cls c) =>
      match env.table.classNamed? c.text with
      | some info =>
        if info.isGeneric then
          fail .typeMismatch id.pos s!"generic class {c.text} used without type arguments"
        else
          return some (.name id (.cls c) (.cls c.text))
      | none => fail .unknownType id.pos s!"undefined: {id.text}"
    | some (.bound _) => fail .unknownType id.pos s!"{id.text} is a bound, not a type"
    | some _ => fail .unknownType id.pos s!"{id.text} is not a type"
  | .apply base args => do
    match env.lookup base.text with
    | some (.cls c) =>
      match env.table.classNamed? c.text with
      | some info =>
        if info.isGeneric then
          match ← types env args with
          | none => return none
          | some terms =>
            let targs := terms.map (·.ty)
            if targs.length ≠ info.tparams.length then
              fail .typeMismatch base.pos
                (s!"wrong number of type arguments for {c.text}: "
                  ++ s!"got {targs.length}, want {info.tparams.length}")
            else if ← typeArgs env base.pos (info.tparams.zip targs) then
              return some (.apply base (.cls c) terms (.inst c.text targs))
            else
              return none
        else
          fail .typeMismatch base.pos s!"{base.text} is not a generic class"
      | none => fail .unknownType base.pos s!"undefined: {base.text}"
    | some (.basic _) | some (.typeParam ..) =>
      fail .typeMismatch base.pos s!"{base.text} is not a generic class"
    | _ => fail .unknownType base.pos s!"undefined: {base.text}"

/-- The types of a list, up to the first that has none. -/
def types (env : Env) : List TypeExpr → Check (Option (List TypeTerm))
  | [] => return some []
  | t :: rest => do
    match ← type env t with
    | none => return none
    | some term =>
      match ← types env rest with
      | none => return none
      | some terms => return some (term :: terms)

end

/-- The type of a variable, which may not be `void`. -/
def varType (env : Env) (t : TypeExpr) : Check (Option TypeTerm) := do
  match ← type env t with
  | none => return none
  | some term =>
    if term.ty.isVoid then fail .typeMismatch t.pos "invalid use of void"
    else return some term

/-- The type of a term that may be missing. -/
def tyOf (term : Option TypeTerm) : Ty := (term.map (·.ty)).getD .invalid

/-- Reports that a scope has a name already. -/
def redeclared (id : Ident) : Check Unit :=
  report .duplicateDeclaration id.pos s!"{id.text} redeclared in this block"

/-- Declares a name in a scope, unless the scope has it already. -/
def declare (s : Scope Symbol) (id : Ident) (sym : Symbol) : Check (Scope Symbol) := do
  match s.insert id.text sym with
  | .ok s => return s
  | .error _ =>
    redeclared id
    return s

/-- The bound of a type parameter. -/
def boundOf (table : Table) : Option Ident → Check (Option Symbol)
  | none => return none
  | some id => do
    match table.unit.find? id.text with
    | some (.bound b) => return some (.bound b)
    | none => fail .unknownType id.pos s!"undefined bound: {id.text}"
    | some _ => fail .unknownType id.pos s!"{id.text} is not a bound"

/-- Declares type parameters in a scope and resolves their bounds. -/
def typeParams (table : Table) : Scope Symbol → List (TypeParamDecl × TypeParam) →
    Check (Scope Symbol × List TypeParamTerm)
  | s, [] => return (s, [])
  | s, (d, p) :: rest => do
    let taken := (s.find? d.name.text).isSome
    if taken then redeclared d.name
    let bound ← boundOf table d.bound
    let p := { p with bound := if bound.isSome then d.bound.map (·.text) else none }
    let s := if taken then s else s.push d.name.text (.typeParam p d.name.pos)
    let (s, terms) ← typeParams table s rest
    return (s, ⟨d, p, bound⟩ :: terms)

/-- Declares parameters in a scope, each after its type has been found. -/
def params (env : Env) : Scope Symbol → List FieldDecl →
    Check (Scope Symbol × List (Var × Option TypeTerm))
  | s, [] => return (s, [])
  | s, d :: rest => do
    let term ← varType (env.enter s) d.type
    let v : Var := ⟨d.name.text, d.name.pos, .param, tyOf term⟩
    let s ← declare s d.name (.var v)
    let (s, list) ← params env s rest
    return (s, (v, term) :: list)

/-- The type of the receiver inside a class. A generic class is applied to its
own parameters. -/
def selfType (c : ClassInfo) : Ty :=
  if c.isGeneric then .inst c.name (c.tparams.map .param) else .cls c.name

/-- Declares the receiver of a method in a scope. -/
def receiver (s : Scope Symbol) (cls : Option ClassInfo) (name : Option Ident) :
    Check (Scope Symbol × Option Var) := do
  match cls, name with
  | some c, some id =>
    let v : Var := ⟨id.text, id.pos, .recv, selfType c⟩
    return (← declare s id (.var v), some v)
  | _, _ => return (s, none)

/-- The header of a function and the scope of its parameters. For a method, `cls`
is its class. -/
def header (env : Env) (d : FuncDecl) (cls : Option ClassInfo) :
    Check (Header × Scope Symbol) := do
  let fresh := Table.freshParams d.name.text d.tparams
  let (s, tparams) ← typeParams env.table { label := "function " ++ d.name.text }
    (d.tparams.zip fresh)
  let (s, recv) ← receiver s cls d.recv
  let (s, params) ← params env s d.params
  let result ←
    match d.result with
    | some t => some <$> type (env.enter s) t
    | none => pure none
  let sig : Signature :=
    { tparams := tparams.map (·.param)
      params := params.map fun (v, _) => ⟨v.name, v.pos, v.ty⟩
      result := match result with
        | some term => tyOf term
        | none => .void }
  let h : Header :=
    { tparams, recv, params := params.filterMap fun (v, t) => t.map ((v, ·))
      result := result.bind id, sig }
  return (h, s)

end ClassLang.Check

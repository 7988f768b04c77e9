import ClassLang.Check.Stmt

/-!
Checking of a whole unit. The names of the unit are registered first, then the
classes are linked, the members and signatures collected, the constants folded,
and last the bodies checked. An error in one of the first three stops the check.
-/

namespace ClassLang

namespace Check

open Typed (Header TypeTerm TypeParamTerm)

/-- A function whose header has been checked, with the scope of its parameters. -/
structure Prepared where
  decl : FuncDecl
  ref : FuncRef
  sym : Symbol
  header : Header
  scope : Scope Symbol

/-- A class whose type parameters and members have been collected. -/
structure Members where
  scope : Scope Symbol
  tparams : List TypeParamTerm
  fields : List (Field × Option TypeTerm) := []
  methods : List Prepared := []

/-- Registers declarations, and reports those that cannot be. -/
def register (t : Table) : List Decl → Check Table
  | [] => return t
  | d :: rest => do
    match t.register d with
    | .ok t => register t rest
    | .error e =>
      reportAll [e]
      register t rest

/-- The environment at the top of a unit while members are collected. -/
def unitEnv (table : Table) : Env :=
  { table, scopes := [table.unit, predeclared], collecting := true }

/-- Opens the scope of a class and resolves the bounds of its type parameters. -/
def classParams (t : Table) (c : ClassInfo) : Check (Table × Members) := do
  let (scope, tparams) ←
    typeParams t { label := "class " ++ c.name } (c.decl.tparams.zip c.tparams)
  let t := t.modifyClass c.id fun c => { c with tparams := tparams.map (·.param) }
  return (t, { scope, tparams })

/-- Opens the scopes of all classes, in the order of their registration. -/
def allClassParams (t : Table) : List ClassInfo → Check (Table × List Members)
  | [] => return (t, [])
  | c :: rest => do
    let (t, m) ← classParams t c
    let (t, ms) ← allClassParams t rest
    return (t, m :: ms)

/-- Collects the methods that the bound `b` asks for. -/
def boundMethods (b : String) (t : Table) : List FuncDecl → Check (Table × List Prepared)
  | [] => return (t, [])
  | d :: rest => do
    let name := d.name.text
    if (((t.boundNamed? b).bind (·.method? name)).isSome) then
      report .duplicateDeclaration d.name.pos s!"method {name} redeclared in bound {b}"
      boundMethods b t rest
    else if !d.tparams.isEmpty then
      report .typeMismatch d.name.pos s!"bound method {b}.{name} cannot have type parameters"
      boundMethods b t rest
    else
      let (h, s) ← header (unitEnv t) d none
      let m : Method := ⟨name, d.name.pos, b, h.sig⟩
      let t := t.modifyBound b fun info => { info with methods := info.methods ++ [m] }
      let (t, list) ← boundMethods b t rest
      return (t, ⟨d, m.ref, .boundMethod m, h, s⟩ :: list)

/-- Collects the methods of all bounds. -/
def allBounds (t : Table) : List BoundInfo → Check (Table × List (String × List Prepared))
  | [] => return (t, [])
  | b :: rest => do
    let (t, list) ← boundMethods b.name t b.decl.methods
    let (t, lists) ← allBounds t rest
    return (t, (b.name, list) :: lists)

/-- Why the class `c` cannot have an own field of a given name. -/
def fieldConflict? (t : Table) (c : ClassInfo) (name : String) : Option String :=
  if (c.field? name).isSome then some s!"field {name} redeclared in class {c.name}"
  else
    match c.parent with
    | none => none
    | some p =>
      match t.lookupField p name with
      | some f => some s!"field {name} redeclares the field inherited from {f.owner}"
      | none =>
        if (t.lookupMethod p name).isSome then
          some s!"field {name} conflicts with inherited method {name}"
        else none

/-- Collects the own fields of the class with number `id`. -/
def classFields (id : Nat) (scope : Scope Symbol) (t : Table) :
    List FieldDecl → Check (Table × List (Field × Option TypeTerm))
  | [] => return (t, [])
  | d :: rest => do
    let term ← varType ((unitEnv t).enter scope) d.type
    match t.class? id with
    | none => classFields id scope t rest
    | some c =>
      match fieldConflict? t c d.name.text with
      | some message =>
        report .duplicateDeclaration d.name.pos message
        classFields id scope t rest
      | none =>
        let f : Field := ⟨d.name.text, d.name.pos, tyOf term, c.name, c.fields.length⟩
        let t := t.pushField id f.name f.pos f.ty
        let (t, list) ← classFields id scope t rest
        return (t, (f, term) :: list)

/-- Why the class `c` cannot have an own method as declared by `d`. -/
def methodConflict? (t : Table) (c : ClassInfo) (d : FuncDecl) :
    Option (ErrorKind × String) :=
  let name := d.name.text
  if (c.method? name).isSome then
    some (.duplicateDeclaration, s!"method {c.name}.{name} redeclared")
  else if (t.lookupField c.id name).isSome then
    some (.duplicateDeclaration, s!"method {name} conflicts with field {name}")
  else if !d.tparams.isEmpty then
    some (.typeMismatch, s!"method {c.name}.{name} cannot have type parameters")
  else none

/-- Checks that a method has the signature of the method it overrides. -/
def overrides (t : Table) (c : ClassInfo) (m : Method) : Check Unit := do
  match c.parent.bind (t.lookupMethod · m.name) with
  | none => return
  | some inherited =>
    if !inherited.sig.identical m.sig then
      report .typeMismatch m.pos
        (s!"method {m.fullName} overrides {inherited.fullName} with a different signature"
          ++ s!"\n\thave {m.sig.text}\n\twant {inherited.sig.text}")

/-- Collects the own methods of the class with number `id`. -/
def classMethods (id : Nat) (scope : Scope Symbol) (t : Table) :
    List FuncDecl → Check (Table × List Prepared)
  | [] => return (t, [])
  | d :: rest => do
    match t.class? id with
    | none => return (t, [])
    | some c =>
      match methodConflict? t c d with
      | some (kind, message) =>
        report kind d.name.pos message
        classMethods id scope t rest
      | none =>
        let (h, s) ← header ((unitEnv t).enter scope) d (some c)
        let m : Method := ⟨d.name.text, d.name.pos, c.name, h.sig⟩
        let t := t.pushMethod id m.name m.pos m.sig
        overrides t c m
        let (t, list) ← classMethods id scope t rest
        return (t, ⟨d, m.ref, .method m, h, s⟩ :: list)

/-- Collects the members of the class with number `id`. -/
def classMembers (t : Table) (id : Nat) (m : Members) : Check (Table × Members) := do
  match t.class? id with
  | none => return (t, m)
  | some c =>
    let (t, fields) ← classFields id m.scope t c.decl.fields
    let (t, methods) ← classMethods id m.scope t c.decl.methods
    return (t, { m with fields, methods })

/-- Collects the members of classes given by number, ancestors first. -/
def allMembers (t : Table) (ms : List Members) : List Nat → Check (Table × List Members)
  | [] => return (t, ms)
  | id :: rest => do
    match ms[id]? with
    | none => allMembers t ms rest
    | some m =>
      let (t, m) ← classMembers t id m
      allMembers t (ms.set id m) rest

/-- Collects the signatures of the functions of a unit. -/
def signatures (t : Table) : List FuncDecl → Check (List Prepared)
  | [] => return []
  | d :: rest => do
    if d.host && !d.tparams.isEmpty then
      report .typeMismatch d.name.pos
        s!"extern function {d.name.text} cannot have type parameters"
    let (h, s) ← header (unitEnv t) d none
    let list ← signatures t rest
    return ⟨d, .func d.name.text, .func d.name d.host, h, s⟩ :: list

/-- Checks the bounds that were put off. -/
def settle (t : Table) : List Duty → Check Unit
  | [] => return
  | d :: rest => do
    discard (satisfies t d.pos d.ty d.bound)
    settle t rest

/-- Checks the declaration of a constant. -/
def constDecl (env : Env) (consts : ConstSource) (d : ConstDecl) :
    Check (Option Typed.Const) := do
  let term ← varType env d.type
  let ty := tyOf term
  if !ty.isInvalid && !ty.isBasic then
    fail .typeMismatch d.type.pos s!"invalid constant type {ty.text}"
  else
    match ← operand env consts d.value, term with
    | some x, some term =>
      match x.expr.value? with
      | none => fail .typeMismatch x.pos s!"{x.text} is not constant"
      | some value =>
        if ← assignable env.table x ty "constant declaration" then
          return some ⟨d, term, x.expr, value⟩
        else
          return none
    | _, _ => return none

/-- The value of a constant, which is folded when it is first needed. A constant
needed while it is being folded depends on itself. At most `fuel` constants are
folded inside each other. -/
def constant (env : Env) (decls : List ConstDecl) : Nat → ConstSource
  | 0, _ => return none
  | fuel + 1, name => do
    match (← get).consts.lookup name, decls.find? (·.name.text = name) with
    | some (.done result), _ => return result.map fun c => (c.type.ty, c.value)
    | some .busy, some d =>
      fail .typeMismatch d.name.pos s!"initialization cycle for constant {name}"
    | none, some d =>
      modify fun s => { s with consts := (name, .busy) :: s.consts }
      let result ← constDecl env (constant env decls fuel) d
      modify fun s => { s with consts := (name, .done result) :: s.consts }
      return result.map fun c => (c.type.ty, c.value)
    | _, none => return none

/-- Folds every constant of a unit, in source order. -/
def foldAll (env : Env) (decls : List ConstDecl) : List ConstDecl → Check Unit
  | [] => return
  | d :: rest => do
    discard (constant env decls (decls.length + 1) d.name.text)
    foldAll env decls rest

/-- The constant called `name`, once all have been folded. -/
def folded (name : String) : Check (Option Typed.Const) := do
  match (← get).consts.lookup name with
  | some (.done result) => return result
  | _ => return none

/-- The source of constants once all have been folded. -/
def foldedValue : ConstSource := fun name => do
  return (← folded name).map fun c => (c.type.ty, c.value)

/-- Checks the body of a function in the environment `env`. The scope of the
function is given back with what its body declares. -/
def funcBody (env : Env) (p : Prepared) : Check (Scope Symbol × Option Typed.Func) := do
  match p.decl.body with
  | none => return (p.scope, some ⟨p.decl, p.ref, p.sym, p.header, none⟩)
  | some b =>
    let place : Place := ⟨env, foldedValue, p.header.sig.result⟩
    let (s, b) ← body place p.scope p.ref.text b
    return (s, b.map fun b => ⟨p.decl, p.ref, p.sym, p.header, some b⟩)

/-- Checks the bodies of several functions. Their scopes are put into `s`. -/
def funcBodies (env : Env) (s : Scope Symbol) :
    List Prepared → Check (Scope Symbol × Option (List Typed.Func))
  | [] => return (s, some [])
  | p :: rest => do
    let (inner, f) ← funcBody env p
    let (s, fs) ← funcBodies env (s.nest inner) rest
    match f, fs with
    | some f, some fs => return (s, some (f :: fs))
    | _, _ => return (s, none)

/-- What has been collected before the bodies are checked. -/
structure Collected where
  table : Table
  classes : List (String × Members)
  bounds : List (String × List Prepared)
  funcs : List Prepared

/-- The scopes of a unit, by kind: of classes, of the methods of bounds, and of
functions. -/
structure Scopes where
  classes : List (Scope Symbol) := []
  funcs : List (Scope Symbol) := []

/-- Checks a class whose members have been collected. -/
def classDecl (env : Env) (d : ClassDecl) (m : Members) :
    Check (Scope Symbol × Option Typed.Class) := do
  let (s, methods) ← funcBodies (env.enter m.scope) m.scope m.methods
  let fields := m.fields.filterMap fun (f, term) => term.map ((f, ·))
  return (s, methods.map fun methods => ⟨d, m.tparams, fields, methods⟩)

/-- Checks one declaration of a unit. Its scope is added to `scopes`. -/
def declaration (env : Env) (c : Collected) (scopes : Scopes) :
    Decl → Check (Scopes × Option Typed.Decl)
  | .cls d => do
    match c.classes.lookup d.name.text with
    | none => return (scopes, none)
    | some m =>
      let (s, result) ← classDecl env d m
      return ({ scopes with classes := scopes.classes ++ [s] }, result.map .cls)
  | .bound d =>
    let methods := ((c.bounds.lookup d.name.text).getD []).map fun p =>
      (⟨p.decl, p.ref, p.sym, p.header, none⟩ : Typed.Func)
    return (scopes, some (.bound ⟨d, methods⟩))
  | .func d => do
    match c.funcs.find? (·.decl.name.text = d.name.text) with
    | none => return (scopes, none)
    | some p =>
      let (s, f) ← funcBody env p
      return ({ scopes with funcs := scopes.funcs ++ [s] }, f.map .func)
  | .const d => do
    return (scopes, (← folded d.name.text).map .const)

/-- Checks the declarations of a unit, and stops when an error was dropped. -/
def declarations (env : Env) (c : Collected) (scopes : Scopes) :
    List Decl → Check (Scopes × Option (List Typed.Decl))
  | [] => return (scopes, some [])
  | d :: rest => do
    if ← full then return (scopes, none)
    let (scopes, d) ← declaration env c scopes d
    let (scopes, rest) ← declarations env c scopes rest
    match d, rest with
    | some d, some rest => return (scopes, some (d :: rest))
    | _, _ => return (scopes, none)

/-- Registers and links the declarations of a unit. -/
def link (decls : List Decl) : Check (Option Table) := do
  let t ← register {} decls
  if ← failed then return none
  let (t, errors) := t.linkAll
  reportAll errors
  return if errors.isEmpty then some t else none

/-- Collects the members and signatures of a linked unit, and seals its table. -/
def collect (f : File) (t : Table) : Check (Option Collected) := do
  let (t, ms) ← allClassParams t t.classes
  let (t, bounds) ← allBounds t t.bounds
  let (t, ms) ← allMembers t ms t.order
  let funcs ← signatures t f.funcs
  settle t (← get).duties
  if ← failed then return none
  let names := t.classes.map (·.name)
  return some ⟨{ t with isSealed := true }, names.zip ms, bounds, funcs⟩

/-- Folds the constants and checks the bodies of a collected unit. -/
def finish (f : File) (c : Collected) : Check (Option Typed.File) := do
  let env : Env :=
    { table := c.table
      funcs := c.funcs.map fun p => (p.decl.name.text, p.header.sig)
      scopes := [c.table.unit, predeclared] }
  foldAll env f.consts f.consts
  let (scopes, decls) ← declarations env c {} f.decls
  match decls with
  | none => return none
  | some decls =>
    let boundScopes := c.bounds.flatMap fun (_, ps) => ps.map (·.scope)
    let inner := scopes.classes ++ boundScopes ++ scopes.funcs
    return some ⟨f.name, decls, c.table, { c.table.unit with inner }⟩

/-- Checks a unit. -/
def unit (f : File) : Check (Option Typed.File) := do
  match ← link f.decls with
  | none => return none
  | some t =>
    match ← collect f t with
    | none => return none
    | some c => finish f c

end Check

namespace File

/-- The number of errors kept if no other is asked for. -/
def defaultErrorLimit : Nat := 10

/-- Checks a unit. At most `limit` errors are kept, in the order in which they
were found. -/
def check (f : File) (limit : Option Nat) : Except (List Diagnostic) Typed.File :=
  let (result, s) := (Check.unit f).run { errors := { limit } }
  match result, s.errors.found with
  | some file, [] => .ok file
  | _, errors => .error errors

end File

end ClassLang

import ClassLang.Table

/-!
The table as it is offered to callers that may use it in the wrong order. Every
operation checks first whether the table is in the state it needs.
-/

namespace ClassLang

/-- A use of a table in the wrong state. -/
inductive Misuse where
  | isSealed (operation : String)
  | sealUnlinked
  | chainUnlinked (cls : String)
  | unknownChain
  deriving DecidableEq, Repr

/-- The wording of a misuse. A class registered after linking has no chain, and
asking for it has no wording. -/
def Misuse.message? : Misuse → Option String
  | .isSealed operation => some s!"types.Table.{operation}: table is sealed"
  | .sealUnlinked => some "types.Table.Seal: table is not linked"
  | .chainUnlinked cls => some s!"types.Table.Chain({cls}): table is not linked"
  | .unknownChain => none

/-- Why an operation on a table fails. -/
inductive TableError where
  | misuse (m : Misuse)
  | invalid (errors : List Diagnostic)

namespace Table

/-- The result of an operation on a table. -/
abbrev Access (α : Type) := Except TableError α

/-- Fails if the table is sealed. -/
def requireOpen (t : Table) (operation : String) : Access Unit :=
  if t.isSealed then .error (.misuse (.isSealed operation)) else .ok ()

/-- Fails if the class has no chain of ancestors yet. -/
def requireChain (t : Table) (c : ClassInfo) : Access Unit :=
  if !t.linked then .error (.misuse (.chainUnlinked c.name))
  else if t.chains.length ≤ c.id then .error (.misuse .unknownChain)
  else .ok ()

/-- An error of one operation as a failure. -/
def lift {α : Type} : Except Diagnostic α → Access α
  | .ok a => .ok a
  | .error e => .error (.invalid [e])

/-- The name of the operation that registers a declaration. -/
def registerName : Decl → String
  | .cls _ => "Register"
  | .bound _ => "RegisterBound"
  | .func _ | .const _ => "Declare"

/-- Registers a declaration in an open table. -/
def tryRegister (t : Table) (d : Decl) : Access Table := do
  t.requireOpen (registerName d)
  lift (t.register d)

/-- Links an open table. The table keeps what was found even on failure. -/
def tryLink (t : Table) : Table × Access Unit :=
  match t.requireOpen "Link" with
  | .error e => (t, .error e)
  | .ok _ =>
    let (t, errors) := t.linkAll
    (t, if errors.isEmpty then .ok () else .error (.invalid errors))

/-- Seals a linked table. -/
def trySeal (t : Table) : Access Table :=
  if t.linked then .ok { t with isSealed := true } else .error (.misuse .sealUnlinked)

/-- Adds a field to a class of an open table. -/
def tryAddField (t : Table) (c : ClassInfo) (name : String) (ty : Ty) : Access Table := do
  t.requireOpen "AddField"
  return t.pushField c.id name Pos.none ty

/-- Adds a method without parameters to a class of an open table. -/
def tryAddMethod (t : Table) (c : ClassInfo) (name : String) (result : Ty) : Access Table := do
  t.requireOpen "AddMethod"
  return t.pushMethod c.id name Pos.none ⟨[], [], result⟩

/-- The names of a class and its ancestors. Before linking the parents are
followed one by one, and a cycle is an error. -/
def tryAncestors (t : Table) (c : ClassInfo) : Access (List String) :=
  if t.linked then do
    t.requireChain c
    return t.namesOf (t.chain c.id)
  else
    match t.walkParents c.id with
    | .ok chain => .ok (t.namesOf chain)
    | .error cycle => .error (.invalid [t.cycleError cycle])

/-- The answer of `query` for a class whose chain of ancestors is known. -/
def withChain {α : Type} (t : Table) (c : ClassInfo) (query : Table → Nat → α) : Access α := do
  t.requireChain c
  return query t c.id

end Table

end ClassLang

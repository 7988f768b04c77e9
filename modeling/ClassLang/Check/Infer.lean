import ClassLang.Check.Types

/-!
Assignability, and the type arguments of generic functions and classes, which
are found from the types of the operands.
-/

namespace ClassLang.Check

/-- An operand: its source form, and the checked expression. -/
structure Operand where
  text : String
  expr : Typed.Expr

namespace Operand

/-- The type of an operand. -/
def ty (x : Operand) : Ty := x.expr.ty

/-- Where errors about an operand are placed. -/
def pos (x : Operand) : Pos := x.expr.valuePos

end Operand

/-- Whether an operand has a value, with an error if it has none. -/
def hasValue (x : Operand) : Check Bool := do
  if x.ty.isVoid then
    report .typeMismatch x.pos s!"{x.text} (no value) used as value"
    return false
  else
    return true

/-- Whether the class called `target` is `from_` or one of its ancestors. -/
def isAncestorName (table : Table) (target from_ : String) : Bool :=
  match table.classNamed? target, table.classNamed? from_ with
  | some a, some c => table.isAncestor a.id c.id
  | _, _ => false

/-- Whether an operand can be assigned to a variable of type `target`: the types
agree, or an object goes to an ancestor of its class. -/
def assignable (table : Table) (x : Operand) (target : Ty) (purpose : String) :
    Check Bool := do
  if !(← hasValue x) then return false
  if target.isInvalid then return false
  if x.ty.identical target then return true
  let cannot := s!"cannot use {x.text} (type {x.ty.text}) as {target.text} value in {purpose}"
  match target, x.ty.className? with
  | .cls name, some c =>
    if isAncestorName table name c then return true
    report .invalidUpcast x.pos s!"{cannot}: {name} is not an ancestor of {c}"
    return false
  | _, _ =>
    report .typeMismatch x.pos cannot
    return false

/-- Whether each operand can be assigned to its type. Each one is looked at. -/
def assignableAll (table : Table) : List (Operand × Ty × String) → Check Bool
  | [] => return true
  | (x, target, purpose) :: rest => do
    let ok ← assignable table x target purpose
    let others ← assignableAll table rest
    return ok && others

mutual

/-- Matches the type of a parameter with that of its argument. `found` holds the
type arguments known so far. A parameter that would need two arguments is given
back with the first of them. -/
def unify (ps : List TypeParam) (found : List (Option Ty)) :
    Ty → Ty → Except (TypeParam × Ty) (List (Option Ty))
  | .param p, arg =>
    if ps[p.index]? = some p then
      match found.getD p.index none with
      | none => .ok (found.set p.index (some arg))
      | some old => if old.identical arg then .ok found else .error (p, old)
    else .ok found
  | .inst c as, .inst d bs => if c = d then unifyAll ps found as bs else .ok found
  | _, _ => .ok found

/-- Matches the types of two lists from left to right. -/
def unifyAll (ps : List TypeParam) (found : List (Option Ty)) :
    List Ty → List Ty → Except (TypeParam × Ty) (List (Option Ty))
  | a :: as, b :: bs => do
    let found ← unify ps found a b
    unifyAll ps found as bs
  | _, _ => .ok found

end

/-- Matches parameter types with operands from left to right. A conflict is
given back with the operand that causes it. -/
def unifyOperands (ps : List TypeParam) (found : List (Option Ty)) :
    List Ty → List Operand → Except (TypeParam × Ty × Operand) (List (Option Ty))
  | t :: ts, x :: xs =>
    match unify ps found t x.ty with
    | .ok found => unifyOperands ps found ts xs
    | .error (p, old) => .error (p, old, x)
  | _, _ => .ok found

/-- The type arguments for the parameters `ps` of `what`, found from the operands
for the parameters of types `types`. -/
def infer (env : Env) (pos : Pos) (what : String) (ps : List TypeParam) (types : List Ty)
    (operands : List Operand) : Check (Option (List Ty)) := do
  match unifyOperands ps (ps.map fun _ => none) types operands with
  | .error (p, old, x) =>
    fail .typeMismatch x.pos
      s!"conflicting types for {p.name} in {what}: {old.text} and {x.ty.text}"
  | .ok found =>
    match (ps.zip found).find? (·.2.isNone) with
    | some (p, _) => fail .typeMismatch pos s!"cannot infer {p.name} in {what}"
    | none =>
      let targs := found.filterMap id
      if ← typeArgs env pos (ps.zip targs) then return some targs else return none

end ClassLang.Check

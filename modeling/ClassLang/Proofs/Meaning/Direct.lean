import ClassLang.Machine
import ClassLang.Typed

/-!
What a checked unit means, said on its tree. Everything is found by name: variables in the scopes
around them, innermost first, fields in the object they belong to, and methods in the class of the
receiver and then in its ancestors. There are no blocks, slots, offsets or tables.

What a body does is a course of requests: it makes objects, reads and writes their fields, and
calls functions. What the answers are is said elsewhere. A loop may not come to an end, so it is
given a number of rounds; a course that uses them up is lost.
-/

namespace ClassLang.Direct

open Machine (Value Failure Cause)
open ClassLang.Graph (Callee)

/-! Courses -/

/-- What is done before a result of type `α` is there. The answer to a request decides how the
course goes on. -/
inductive Course (α : Type) where
  | done (a : α)
  | fail (e : Failure)
  /-- The number of rounds is used up. -/
  | lost
  /-- A new object of the class `cls`, without values for its fields. -/
  | create (cls : String) (next : Value → Course α)
  /-- The value of the field `name` of `x`. -/
  | get (x : Value) (name : String) (next : Value → Course α)
  /-- The field `name` of `x` gets the value `y`. -/
  | set (x : Value) (name : String) (y : Value) (next : Course α)
  /-- The result of a function. -/
  | call (target : Callee) (args : List Value) (next : Value → Course α)
  /-- The result of the method `name` that the object `x` has. -/
  | invoke (x : Value) (name : String) (args : List Value) (next : Value → Course α)

namespace Course

variable {α β : Type}

/-- Goes on with the result of a course. -/
def andThen : Course α → (α → Course β) → Course β
  | .done a, k => k a
  | .fail e, _ => .fail e
  | .lost, _ => .lost
  | .create cls next, k => .create cls fun x => (next x).andThen k
  | .get x name next, k => .get x name fun y => (next y).andThen k
  | .set x name y next, k => .set x name y (next.andThen k)
  | .call target args next, k => .call target args fun y => (next y).andThen k
  | .invoke x name args next, k => .invoke x name args fun y => (next y).andThen k

instance : Monad Course where
  pure := .done
  bind := andThen

/-- What no well typed unit does. -/
def stuck : Course α := .fail (.crash .fault)

end Course

/-! Variables -/

/-- Values under names, the innermost first. -/
abbrev Env := List (String × Value)

namespace Env

/-- Gives the first entry called `name` another value. -/
def assign (name : String) (x : Value) : Env → Env
  | [] => []
  | (n, y) :: rest => if n = name then (n, x) :: rest else (n, y) :: assign name x rest

end Env

/-! Operators -/

/-- The value of a constant. -/
def ofConstant : Constant → Value
  | .int n => .int (Int64.ofInt n)
  | .float q => .float (Double.ofRat q)
  | .bool b => .bool b
  | .str s => .str s

/-- An operation on integers, which wraps around. -/
def ofInts (op : BinaryOp) (a b : Int64) : Except Cause Value :=
  match op with
  | .add => .ok (.int (a + b))
  | .sub => .ok (.int (a - b))
  | .mul => .ok (.int (a * b))
  | .div => if b = 0 then .error .divideByZero else .ok (.int (a / b))
  | .rem => if b = 0 then .error .divideByZero else .ok (.int (a % b))
  | .eql => .ok (.bool (a == b))
  | .neq => .ok (.bool (!(a == b)))
  | .lss => .ok (.bool (a < b))
  | .leq => .ok (.bool (a ≤ b))
  | .gtr => .ok (.bool (b < a))
  | .geq => .ok (.bool (b ≤ a))
  | .or | .and => .ok .nil

/-- An operation on floats. -/
def ofFloats (op : BinaryOp) (a b : Double) : Value :=
  match op with
  | .add => .float (a.add b)
  | .sub => .float (a.sub b)
  | .mul => .float (a.mul b)
  | .div => .float (a.div b)
  | .eql => .bool (a.equal b)
  | .neq => .bool (!a.equal b)
  | .lss => .bool (a.less b)
  | .leq => .bool (a.lessEqual b)
  | .gtr => .bool (b.less a)
  | .geq => .bool (b.lessEqual a)
  | .rem | .or | .and => .nil

/-- An operation on two values. A division by zero fails in the function `func` at `pos`. -/
def binary (func : String) (pos : Pos) (op : BinaryOp) : Value → Value → Course Value
  | .int a, .int b =>
    match ofInts op a b with
    | .ok x => pure x
    | .error cause => .fail (.runtime func pos cause)
  | .float a, .float b => pure (ofFloats op a b)
  | .bool a, .bool b =>
    match op with
    | .eql => pure (.bool (a == b))
    | .neq => pure (.bool (!(a == b)))
    | _ => .stuck
  | .str a, .str b =>
    match op with
    | .eql => pure (.bool (a == b))
    | .neq => pure (.bool (!(a == b)))
    | _ => .stuck
  | _, _ => .stuck

/-- An operation on one value. -/
def unary : UnaryOp → Value → Course Value
  | .neg, .int a => pure (.int (-a))
  | .neg, .float a => pure (.float a.neg)
  | .not, .bool b => pure (.bool !b)
  | _, _ => .stuck

/-- A truth value. -/
def truth : Value → Course Bool
  | .bool b => pure b
  | _ => .stuck

end Direct

/-! Functions by name -/

namespace Typed.File

/-- The top-level function called `name`. -/
def funcNamed? (u : File) (name : String) : Option Func :=
  u.funcs.find? (·.decl.name.text = name)

/-- The function or method that `ref` refers to. -/
def body? (u : File) (ref : FuncRef) : Option Func := u.bodies.find? (·.ref = ref)

/-- The method called `name` that objects of the class `cls` have. -/
def methodOf? (u : File) (cls name : String) : Option Method := do
  let c ← u.table.classNamed? cls
  u.table.lookupMethod c.id name

end Typed.File

namespace Direct

open Machine (Value Failure Cause)
open ClassLang.Graph (Callee)

/-- Where code stands: its unit, the name of its function, and how often a loop may go round. -/
structure Setting where
  unit : Typed.File
  func : String
  rounds : Nat

/-! Expressions -/

/-- Calls the top-level function called `name`. -/
def callNamed (S : Setting) (name : String) (args : List Value) : Course Value :=
  match S.unit.funcNamed? name with
  | some g => .call (if g.decl.host then .host name else .func g.ref) args pure
  | none => .stuck

mutual

/-- The value of an expression. Operands come from left to right, and the right operand of
`&&` and `||` only if it is needed. -/
def expr (S : Setting) (env : Env) : Typed.Expr → Course Value
  | .var id _ =>
    match env.lookup id.text with
    | some x => pure x
    | none => .stuck
  | .const _ _ _ value | .literal _ _ _ _ value => pure (ofConstant value)
  | .unary _ op x _ value =>
    match value with
    | some c => pure (ofConstant c)
    | none => do unary op (← expr S env x)
  | .binary op x y _ value =>
    match value with
    | some c => pure (ofConstant c)
    | none =>
      match op with
      | .and => do if ← truth (← expr S env x) then expr S env y else pure (.bool false)
      | .or => do if ← truth (← expr S env x) then pure (.bool true) else expr S env y
      | op => do
        let a ← expr S env x
        let b ← expr S env y
        binary S.func x.pos op a b
  | .call fn _ _ _ args => do callNamed S fn.text (← exprs S env args)
  | .invoke x sel _ _ _ args => do
    let a ← expr S env x
    let bs ← exprs S env args
    .invoke a sel.text bs pure
  | .field x sel _ _ => do .get (← expr S env x) sel.text pure
  | .init cls _ _ _ elems =>
    .create cls.text fun x => do
      fill S env x elems
      pure x
  | .paren _ x => expr S env x

/-- The values of expressions, from left to right. -/
def exprs (S : Setting) (env : Env) : List Typed.Expr → Course (List Value)
  | [] => pure []
  | x :: rest => do
    let a ← expr S env x
    let as ← exprs S env rest
    pure (a :: as)

/-- Gives a new object its fields, in the order in which they are written. -/
def fill (S : Setting) (env : Env) (x : Value) : List (Ident × Typed.Expr) → Course Unit
  | [] => pure ()
  | (key, e) :: rest => do
    let y ← expr S env e
    .set x key.text y (fill S env x rest)

end

/-! Statements -/

/-- How a statement ends: what follows it runs, or the function returns. -/
inductive Flow where
  | next (env : Env)
  | ret (x : Value)

namespace Flow

/-- Goes on behind a statement, unless the function returns. -/
def goOn (k : Env → Course Flow) : Flow → Course Flow
  | .next env => k env
  | .ret x => pure (.ret x)

/-- Closes a scope: the variables that were not there before go out of sight. -/
def close (outer : Env) : Flow → Flow
  | .next env => .next (env.drop (env.length - outer.length))
  | .ret x => .ret x

/-- What a function gives back whose body ends so. Without a `return` it is `nil`. -/
def result : Flow → Course Value
  | .next _ => pure .nil
  | .ret x => pure x

end Flow

/-- Goes round a loop as long as the test holds. -/
def loop (test : Env → Course Bool) (body : Env → Course Flow) : Nat → Env → Course Flow
  | 0, _ => .lost
  | rounds + 1, env => do
    if ← test env then
      let flow ← body env
      flow.goOn (loop test body rounds)
    else pure (.next env)

/-- Whether a counting variable, which is the innermost one, has not passed its last
value. -/
def within (last : Value) : Env → Course Bool
  | (_, .int i) :: _ =>
    match last with
    | .int n => pure (i ≤ n)
    | _ => .stuck
  | _ => .stuck

/-- Adds one to a counting variable. -/
def increment : Env → Course Flow
  | (name, .int i) :: rest => pure (.next ((name, .int (i + 1)) :: rest))
  | _ => .stuck

/-- An assignment to a variable or to a field. The object of a field comes first. -/
def assign (S : Setting) (env : Env) (lhs rhs : Typed.Expr) : Course Flow :=
  match lhs.unparen with
  | .var id _ => do
    let x ← expr S env rhs
    pure (.next (env.assign id.text x))
  | .field x sel _ _ => do
    let a ← expr S env x
    let b ← expr S env rhs
    .set a sel.text b (pure (.next env))
  | _ => .stuck

mutual

/-- Runs a statement. -/
def stmt (S : Setting) (env : Env) : Typed.Stmt → Course Flow
  | .empty _ => pure (.next env)
  | .expr x => do
    let _ ← expr S env x
    pure (.next env)
  | .bind _ v _ value => do
    let x ← expr S env value
    pure (.next ((v.name, x) :: env))
  | .assign lhs rhs => assign S env lhs rhs
  | .block body => block S env body
  | .ifElse cond body none => do
    if ← truth (← expr S env cond) then block S env body else pure (.next env)
  | .ifElse cond body (some other) => do
    if ← truth (← expr S env cond) then block S env body else stmt S env other
  | .whileLoop cond body =>
    loop (fun env => do truth (← expr S env cond)) (fun env => block S env body) S.rounds env
  | .forLoop _ v _ low high body => do
    let first ← expr S env low
    let last ← expr S env high
    let flow ← loop (within last)
      (fun env => do
        let flow ← block S env body
        flow.goOn increment)
      S.rounds ((v.name, first) :: env)
    pure (flow.close env)
  | .ret _ none => pure (.ret .nil)
  | .ret _ (some x) => do pure (.ret (← expr S env x))

/-- Runs a block in a scope of its own. -/
def block (S : Setting) (env : Env) : Typed.Block → Course Flow
  | .mk list => do
    let flow ← stmts S env list
    pure (flow.close env)

/-- Runs statements up to the first that returns. -/
def stmts (S : Setting) (env : Env) : List Typed.Stmt → Course Flow
  | [] => pure (.next env)
  | s :: rest => do
    let flow ← stmt S env s
    flow.goOn fun env => stmts S env rest

end

/-! Functions -/

end Direct

/-- The variables that a header declares, in source order. -/
def Typed.Header.declared (h : Typed.Header) : List Var := h.recv.toList ++ h.params.map (·.1)

namespace Direct

open Machine (Value Failure Cause)

/-- The variables of a call, the last parameter innermost. -/
def arguments (h : Typed.Header) (args : List Value) : Env :=
  ((h.declared.map (·.name)).zip args).reverse

/-- What a function does with given arguments. -/
def body (u : Typed.File) (rounds : Nat) (g : Typed.Func) (b : Typed.Block) (args : List Value) :
    Course Value := do
  let flow ← block ⟨u, g.ref.text, rounds⟩ (arguments g.header args) b
  flow.result

end Direct

end ClassLang

/-!
What the courses of a unit come to. Objects know their class and have their fields by name; a call
runs the body of a function, and the method of an object is looked up by name in its class. There
may be only so many calls under way. Host functions do what they do on a machine, but with these
objects: what one of them looks at or leaves behind has its fields in the order of its layout.

A call is given a number of rounds, which bounds how often each loop goes round and how deep calls
are nested. One that uses them up has no outcome; one that has no outcome for any number of rounds
never returns.
-/

namespace ClassLang.Direct

open Machine (Value Failure Object Host Reply)
open ClassLang.Graph (Callee)

/-! Objects -/

/-- An object by name: its class, and the values of its fields, the newest first. -/
structure Thing where
  cls : String
  fields : List (String × Value) := []

namespace Thing

/-- The value of a field. -/
def field? (o : Thing) (name : String) : Option Value := o.fields.lookup name

/-- Gives a field a value. -/
def give (o : Thing) (name : String) (x : Value) : Thing :=
  { o with fields := (name, x) :: o.fields }

/-- An object as host functions see it. -/
def object? (o : Thing) (u : Typed.File) : Option Object := do
  let l ← (Layouts.build u.table).named? o.cls
  let fields ← l.fields.mapM fun s => o.field? s.field.name
  return { layout := l, dispatch := some l, fields := fields.toArray }

/-- What a host function has left behind. -/
def ofObject (o : Object) : Thing where
  cls := o.layout.name
  fields := (o.layout.fields.map (·.field.name)).zip o.fields.toList

end Thing

/-! Worlds -/

/-- Everything that code can change: the objects, the host functions, what these have kept, and
what has been printed. -/
structure World where
  things : Array Thing := #[]
  hosts : List (String × Host) := Host.standard
  memory : List Value := []
  out : String := ""

/-- How a run ends, if it does. -/
abbrev Outcome := Option (World × Except Failure Value)

namespace World

/-- What no well typed unit comes to. -/
def stuck (w : World) : Outcome := some (w, .error (.crash .fault))

/-- The object that a value refers to. -/
def thing? (w : World) : Value → Option Thing
  | .obj ref => w.things[ref]?
  | _ => none

/-- Gives a field of an object a value. -/
def give (w : World) (x : Value) (name : String) (y : Value) : World :=
  match x with
  | .obj ref => { w with things := w.things.modify ref (·.give name y) }
  | _ => w

/-- Does what a host function asks for. `last` is the failure of the call that it made last. -/
def serve (u : Typed.File) (call : World → FuncRef → List Value → Outcome) (last : Option Failure) :
    Reply → World → Outcome
  | .value x, w => some (w, .ok x)
  | .fail text, w => some (w, .error (.host text))
  | .pass, w => some (w, .error (last.getD (.crash .fault)))
  | .crash, w => w.stuck
  | .print text next, w => serve u call last next { w with out := w.out ++ text }
  | .look ref next, w =>
    match (w.things[ref]?).bind (·.object? u) with
    | some o => serve u call last (next o) w
    | none => w.stuck
  | .change ref o next, w =>
    serve u call last next { w with things := w.things.setIfInBounds ref (.ofObject o) }
  | .create o next, w =>
    serve u call last (next w.things.size) { w with things := w.things.push (.ofObject o) }
  | .kept next, w => serve u call last (next w.memory) w
  | .keep memory next, w => serve u call last next { w with memory }
  | .bind name respond next, w =>
    serve u call last next { w with hosts := (name, ⟨respond⟩) :: w.hosts.filter (·.1 ≠ name) }
  | .call fn args _ next, w =>
    match fn.ref with
    | none => w.stuck
    | some ref =>
      match call w ref args with
      | none => none
      | some (w, .ok x) => serve u call none (next (.ok x)) w
      | some (w, .error e) => serve u call (some e) (next (.error e)) w

/-- Calls a function or a host function. -/
def call (u : Typed.File) (callFunc : World → FuncRef → List Value → Outcome) (w : World)
    (target : Callee) (args : List Value) : Outcome :=
  match target with
  | .func ref => callFunc w ref args
  | .host name =>
    match w.hosts.lookup name with
    | none => some (w, .error (.runtime name Pos.none .noHost))
    | some h => serve u callFunc none (h.respond args) w
  | .strayFunc _ | .strayHost _ => w.stuck

end World

/-! Runs -/

/-- Takes a course to its end. -/
def Course.run (u : Typed.File) (call : World → Callee → List Value → Outcome) :
    Course Value → World → Outcome
  | .done x, w => some (w, .ok x)
  | .fail e, w => some (w, .error e)
  | .lost, _ => none
  | .create cls next, w =>
    (next (.obj w.things.size)).run u call { w with things := w.things.push { cls } }
  | .get x name next, w =>
    match (w.thing? x).bind (·.field? name) with
    | some y => (next y).run u call w
    | none => w.stuck
  | .set x name y next, w => next.run u call (w.give x name y)
  | .call target args next, w =>
    match call w target args with
    | none => none
    | some (w, .ok y) => (next y).run u call w
    | some (w, .error e) => some (w, .error e)
  | .invoke x name args next, w =>
    match (w.thing? x).bind fun o => u.methodOf? o.cls name with
    | none => w.stuck
    | some m =>
      match call w (.func m.ref) (x :: args) with
      | none => none
      | some (w, .ok y) => (next y).run u call w
      | some (w, .error e) => some (w, .error e)

/-- Calls a function while `depth` calls are under way, of which there may be `limit`. -/
def call (u : Typed.File) (limit : Nat) : Nat → Nat → World → FuncRef → List Value → Outcome
  | 0, _, _, _, _ => none
  | rounds + 1, depth, w, ref, args =>
    match u.body? ref with
    | none => w.stuck
    | some g =>
      match g.body with
      | none => w.stuck
      | some b =>
        if limit ≤ depth then some (w, .error (.runtime ref.text Pos.none (.tooDeep limit)))
        else (body u rounds g b args).run u (World.call u (call u limit rounds (depth + 1))) w

end ClassLang.Direct

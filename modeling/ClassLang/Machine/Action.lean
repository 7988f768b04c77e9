import ClassLang.Machine.Host

/-!
What one instruction does. An instruction reads the frame it runs in and the
heap, and the outcome is an action that changes them.
-/

namespace ClassLang.Machine

open ClassLang.Graph (Instr Op Callee)

/-- A host function that waits for a call that it has made: the budget that counts
again after it, if the call has one of its own, and what is done with its outcome. -/
structure Waiting where
  budget : Option Budget
  next : Except Failure Value → Reply

/-- The activation of a function. `origin` is the block that control came from.
`todo` lists the instructions of the current block that have not run; it is
missing until the block has been entered. While a call is under way, the
instruction that made it stays the first of the list. Behind a call by a host
function stands `outer`. -/
structure Frame where
  fn : Graph.Func
  args : List Value
  values : Array (Option Value)
  slots : Array (Option Value)
  block : Option Nat
  origin : Option Nat := none
  todo : Option (List Nat) := none
  outer : Option Waiting := none

instance : Inhabited Frame := ⟨⟨default, [], #[], #[], none, none, none, none⟩⟩

namespace Frame

/-- The frame of a call that has not started. -/
def start (fn : Graph.Func) (args : List Value) (outer : Option Waiting) : Frame :=
  { fn, args, outer, block := fn.entry
    values := Array.replicate fn.instrs.size none
    slots := Array.replicate fn.instrs.size none }

/-- The value of an instruction, `nil` if it has not run. -/
def value (f : Frame) (i : Nat) : Value := (f.values.getD i none).getD .nil

/-- The value of operand number `i`. A missing operand is `nil`, but one beyond
the end of the list is a fault. -/
def operand (f : Frame) (v : Instr) (i : Nat) : Except Failure Value :=
  match v.args[i]? with
  | some (some a) => .ok (f.value a)
  | some none => .ok .nil
  | none => .error (.crash .fault)

/-- The values of several operands. -/
def operands (f : Frame) (args : List (Option Nat)) : List Value :=
  args.map fun a => (a.map f.value).getD .nil

/-- A failure of an instruction. -/
def fail {α : Type} (f : Frame) (v : Instr) (cause : Cause) : Except Failure α :=
  .error (.runtime f.fn.name v.pos cause)

/-- The slot that the first operand names. -/
def slot (f : Frame) (v : Instr) : Except Failure (Nat × Value) :=
  match v.args with
  | some a :: _ =>
    match f.slots.getD a none with
    | some x => .ok (a, x)
    | none => .error (.crash .fault)
  | _ => .error (.crash .fault)

/-- The first operand, which must be an object. -/
def object (f : Frame) (heap : Array Object) (v : Instr) : Except Failure (Nat × Object) := do
  match ← f.operand v 0 with
  | .obj ref =>
    match heap[ref]? with
    | some o => return (ref, o)
    | none => throw (.crash .fault)
  | x => throw (.crash (.notObject v.op 0 x.kindText))

end Frame

/-- A change of the machine by an instruction. -/
inductive Action where
  | give (x : Value)
  | newSlot
  | store (slot : Nat) (x : Value)
  | allocate (o : Object)
  | setField (ref index : Nat) (x : Value)
  | setDispatch (ref : Nat) (l : ClassLayout)
  | call (target : Callee) (args : List Value)

/-! Operators -/

/-- The outcome of an operation on two integers. Results wrap around. -/
def intOp (f : Frame) (v : Instr) (x y : Int64) : Except Failure Value :=
  match v.op with
  | .add64 => .ok (.int (x + y))
  | .sub64 => .ok (.int (x - y))
  | .mul64 => .ok (.int (x * y))
  | .div64 => if y = 0 then f.fail v .divideByZero else .ok (.int (x / y))
  | .mod64 => if y = 0 then f.fail v .divideByZero else .ok (.int (x % y))
  | .lt64 => .ok (.bool (x < y))
  | .leq64 => .ok (.bool (x ≤ y))
  | .gt64 => .ok (.bool (y < x))
  | _ => .ok (.bool (y ≤ x))

/-- The outcome of an operation on two floats. -/
def floatOp (op : Op) (x y : Double) : Value :=
  match op with
  | .addF64 => .float (x.add y)
  | .subF64 => .float (x.sub y)
  | .mulF64 => .float (x.mul y)
  | .divF64 => .float (x.div y)
  | .eqF64 => .bool (x.equal y)
  | .neqF64 => .bool (!x.equal y)
  | .ltF64 => .bool (x.less y)
  | .leqF64 => .bool (x.lessEqual y)
  | .gtF64 => .bool (y.less x)
  | _ => .bool (y.lessEqual x)

/-- The outcome of an operation on two values. -/
def binary (f : Frame) (v : Instr) (x y : Value) : Except Failure Value :=
  match v.op with
  | .add64 | .sub64 | .mul64 | .div64 | .mod64 | .lt64 | .leq64 | .gt64 | .geq64 =>
    match x, y with
    | .int x, .int y => intOp f v x y
    | _, _ => .error (.crash .fault)
  | .eq64 => .ok (.bool (x.same y))
  | .neq64 => .ok (.bool (!x.same y))
  | .addF64 | .subF64 | .mulF64 | .divF64 | .eqF64 | .neqF64 | .ltF64 | .leqF64 | .gtF64
  | .geqF64 =>
    match x, y with
    | .float x, .float y => .ok (floatOp v.op x y)
    | _, _ => .error (.crash .fault)
  | .eqStr =>
    match x, y with
    | .str x, .str y => .ok (.bool (x == y))
    | _, _ => .error (.crash .fault)
  | .neqStr =>
    match x, y with
    | .str x, .str y => .ok (.bool (x != y))
    | _, _ => .error (.crash .fault)
  | op => .error (.crash (.unhandledPair op))

/-- The outcome of an operation on one value. -/
def unary (v : Instr) (x : Value) : Except Failure Value :=
  match v.op, x with
  | .neg64, .int n => .ok (.int (-n))
  | .negF64, .float x => .ok (.float x.neg)
  | .not, .bool b => .ok (.bool !b)
  | _, _ => .error (.crash .fault)

/-! Instructions -/

/-- The argument that an instruction asks for. The receiver comes first. -/
def argument (f : Frame) (v : Instr) : Except Failure Value :=
  let i := v.number.toInt + (if f.fn.isMethod then 1 else 0)
  if i < 0 then f.fail v (.missingArgument v.name)
  else
    match f.args[i.toNat]? with
    | some x => .ok x
    | none => f.fail v (.missingArgument v.name)

/-- The number of the field at a byte offset. -/
def fieldIndex (offset : Int64) : Int := (offset.toInt - headerSize).tdiv wordSize

/-- The field of an object at a byte offset. -/
def fieldAt (o : Object) (offset : Int64) : Except Failure (Nat × Value) :=
  let i := fieldIndex offset
  if i < 0 then .error (.crash .fault)
  else
    match o.fields[i.toNat]? with
    | some x => .ok (i.toNat, x)
    | none => .error (.crash .fault)

/-- The layout that an instruction carries. -/
def carriedLayout (v : Instr) : Except Failure ClassLayout :=
  match v.layout? with
  | some l => .ok l
  | none => .error (.crash .fault)

/-- What an instruction does. -/
def action (f : Frame) (heap : Array Object) (v : Instr) : Except Failure Action :=
  match v.op with
  | .const64 => .ok (.give (.int v.number))
  | .constFloat => .ok (.give (.float v.float))
  | .constBool => .ok (.give (.bool (v.number != 0)))
  | .constString => .ok (.give (.str v.name))
  | .arg => do return .give (← argument f v)
  | .alloca => .ok .newSlot
  | .load => do
    let (_, x) ← f.slot v
    return .give x
  | .store => do
    let x ← f.operand v 1
    let (slot, _) ← f.slot v
    return .store slot x
  | .neg64 | .negF64 | .not => do
    let x ← f.operand v 0
    return .give (← unary v x)
  | .alloc => do
    let l ← carriedLayout v
    return .allocate { layout := l, fields := Array.replicate l.fields.length .nil }
  | .loadField => do
    let (_, o) ← f.object heap v
    let (_, x) ← fieldAt o v.number
    return .give x
  | .storeField => do
    let (ref, o) ← f.object heap v
    let x ← f.operand v 1
    let (i, _) ← fieldAt o v.number
    return .setField ref i x
  | .setDispatch => do
    let (ref, _) ← f.object heap v
    return .setDispatch ref (← carriedLayout v)
  | .callDirect =>
    match v.callee? with
    | some target => .ok (.call target (f.operands v.args))
    | none => .error (.crash .fault)
  | .dispatchTable => do
    let (_, o) ← f.object heap v
    match o.dispatch with
    | some l => return .give (.table l)
    | none => f.fail v (.noDispatch o.text)
  | .dispatchEntry => do
    match ← f.operand v 0 with
    | .table l =>
      match l.method? v.number.toInt with
      | some m => return .give (.method m.ref)
      | none => f.fail v (.noMethod l.name v.name v.number)
    | _ => throw (.crash .fault)
  | .callIndirect => do
    match ← f.operand v 0 with
    | .method ref => return .call (.func ref) (f.operands v.args.tail)
    | _ => throw (.crash .fault)
  | op =>
    match v.args with
    | [_, _] => do
      let x ← f.operand v 0
      let y ← f.operand v 1
      return .give (← binary f v x y)
    | _ => .error (.crash (.unhandled op))

end ClassLang.Machine

import ClassLang.Graph

/-!
Building a graph step by step. Instructions and blocks are only ever added, so
their numbers stay valid; an instruction goes to the end of its block, except
that slots are kept together at the start of the entry.
-/

namespace ClassLang.Graph

/-- How a tree that is not well typed stops the construction of its graph. -/
inductive Fault where
  | noBlock
  | noBody (func : String)
  | noReceiver (func : String)
  | noSlot (var : String)
  | notAssignable (kind : String)
  | constantRange (value : Int)
  | constantType (ty : Ty)
  | intOperator (op : BinaryOp)
  | floatOperator (op : BinaryOp)
  | textOperator (op : BinaryOp)
  | noDispatchSlot (method : String)
  | notObject (expr : String)
  | noLayout (cls : String)
  | noField (cls field : String)
  | noElement (cls field : String)
  | unsealed
  deriving Repr

namespace Fault

/-- The wording of a fault. Where something is missing altogether there is none. -/
def message? : Fault → Option String
  | .noBlock | .noBody _ | .noLayout _ => none
  | .noReceiver func => some s!"ir.buildFunc: no receiver object for {func}"
  | .noSlot var => some s!"ir.builder.local: no slot for {var}"
  | .notAssignable kind => some s!"ir.assignStmt: cannot assign to {kind}"
  | .constantRange value => some s!"ir.constValue: {value} does not fit in int"
  | .constantType ty => some s!"ir.constValue: unhandled constant type {ty.text}"
  | .intOperator op => some s!"ir.intBinOp: unhandled token {op.token.text}"
  | .floatOperator op => some s!"ir.floatBinOp: unhandled token {op.token.text}"
  | .textOperator op => some s!"ir.strBinOp: unhandled token {op.token.text}"
  | .noDispatchSlot method => some s!"ir.callExpr: no dispatch slot for method {method}"
  | .notObject expr => some s!"ir.fieldOffset: {expr} is not an object"
  | .noField cls field => some s!"layout.FieldOffset: class {cls} has no field {field}"
  | .noElement cls field => some s!"ir.initExpr: class {cls} has no field {field}"
  | .unsealed => some "layout.Build: table is not sealed"

end Fault

/-- A graph under construction. `current` is the block that instructions go to,
none after a return; `slots` leads from the place where a variable is declared
to its slot. Construction goes on after a fault, but what it makes then has no
meaning. -/
structure Builder where
  func : Func
  current : Option Nat := some 0
  slotCount : Nat := 0
  slots : List (Pos × Nat) := []
  faults : List Fault := []

/-- A step of construction. -/
abbrev Build (α : Type) := StateM Builder α

namespace Builder

/-- A graph that has an empty entry block only. -/
def start (name : String) (ref : FuncRef) (sig : Signature) (recv : Option Ty) : Builder :=
  let func : Func :=
    { name, ref := some ref, sig := some sig, recv, order := [0], blocks := #[{ id := 0 }] }
  { func }

end Builder

namespace Build

/-- Notes a fault. -/
def fault (x : Fault) : Build Unit := modify fun s => { s with faults := s.faults ++ [x] }

/-- The value that should be there, or `default` after a fault. -/
def require {α : Type} (x : Option α) (missing : Fault) (default : α) : Build α := do
  match x with
  | some a => return a
  | none =>
    fault missing
    return default

/-- Changes the graph. -/
def modifyFunc (f : Func → Func) : Build Unit :=
  modify fun s => { s with func := f s.func }

/-- Changes block `b`. -/
def modifyBlock (b : Nat) (f : Block → Block) : Build Unit :=
  modifyFunc fun g => { g with blocks := g.blocks.modify b f }

/-- Adds an empty block. -/
def newBlock : Build Nat := do
  let b := (← get).func.blocks.size
  modifyFunc fun g => { g with blocks := g.blocks.push { id := b }, order := g.order ++ [b] }
  return b

/-- Takes block `b` out of the function. -/
def removeBlock (b : Nat) : Build Unit :=
  modifyFunc fun g => { g with order := g.order.erase b }

/-- Makes `b` the block that instructions go to. -/
def enter (b : Option Nat) : Build Unit := modify fun s => { s with current := b }

/-- Adds an edge from block `a` to block `b`. -/
def addEdge (a b : Nat) : Build Unit := do
  modifyBlock a fun x => { x with succs := x.succs ++ [b] }
  modifyBlock b fun x => { x with preds := x.preds ++ [a] }

/-- The current block. -/
def here : Build Nat := do require (← get).current .noBlock 0

/-- Adds an edge from the current block, if there is one. -/
def jump (b : Nat) : Build Unit := do
  match (← get).current with
  | some a => addEdge a b
  | none => return

/-- Ends the current block with a branch. -/
def branch (cond yes no : Nat) : Build Unit := do
  let a ← here
  modifyBlock a fun x => { x with kind := .branch, controls := [some cond] }
  addEdge a yes
  addEdge a no

/-- Ends the current block with a return. -/
def ret (result : Option Nat) : Build Unit := do
  let a ← here
  modifyBlock a fun x => { x with kind := .ret, controls := result.toList.map some }

/-- Adds an instruction to the arena without putting it into a block. -/
def record (v : Nat → Instr) : Build Nat := do
  let i := (← get).func.instrs.size
  modifyFunc fun g => { g with instrs := g.instrs.push (v i) }
  return i

/-- Adds an instruction to the end of block `b`. -/
def place (b : Nat) (v : Nat → Instr) : Build Nat := do
  let i ← record v
  modifyBlock b fun x => { x with values := x.values ++ [i] }
  return i

/-- Adds an instruction that carries a number and more to the end of block `b`. -/
def emitAt (b : Nat) (op : Op) (type : Option Ty) (args : List Nat) (pos : Pos)
    (number : Int64) (aux : Option Aux) : Build Nat :=
  place b fun i => { id := i, op, type, args := args.map some, block := b, number, aux, pos }

/-- Adds an instruction that carries a number and more to the current block. -/
def emitWith (op : Op) (type : Option Ty) (args : List Nat) (pos : Pos) (number : Int64)
    (aux : Option Aux) : Build Nat := do
  emitAt (← here) op type args pos number aux

/-- Adds an instruction to the current block. -/
def emit (op : Op) (type : Option Ty) (args : List Nat) (pos : Pos) : Build Nat :=
  emitWith op type args pos 0 none

/-- Adds a float to the current block. -/
def emitFloat (type : Option Ty) (pos : Pos) (float : Double) : Build Nat := do
  let b ← here
  place b fun i => { id := i, op := .constFloat, type, block := b, float, pos }

/-- Adds a slot for a variable behind the slots at the start of the entry. -/
def newSlot (v : Var) : Build Nat := do
  let i ← record fun i =>
    { id := i, op := .alloca, type := some v.ty, block := 0, aux := some (.text v.name) }
  let n := (← get).slotCount
  modifyBlock 0 fun x => { x with values := x.values.take n ++ i :: x.values.drop n }
  modify fun s => { s with slotCount := n + 1, slots := (v.pos, i) :: s.slots }
  return i

/-- The slot of a variable. -/
def slotOf (v : Var) : Build Nat := do
  require ((← get).slots.lookup v.pos) (.noSlot v.name) 0

end Build

end ClassLang.Graph

import ClassLang.Graph.Op
import ClassLang.Layout
import ClassLang.Number.Double

/-!
Control-flow graphs. A function is a graph of basic blocks, and a block is a
sequence of instructions with an end that says where control goes. Instructions
and blocks are numbered; operands, successors and predecessors are numbers.

Locals live in slots, which are read by `load` and written by `store`. Objects
are accessed by byte offset, and a call through a class looks its target up in
the dispatch table of the receiver.
-/

namespace ClassLang.Graph

/-- What a call names. A stray one is declared by no unit. -/
inductive Callee where
  | func (ref : FuncRef)
  | host (name : String)
  | strayFunc (name : String)
  | strayHost (name : String)
  deriving DecidableEq, Repr, Inhabited

namespace Callee

/-- The name of what is called. -/
def text : Callee → String
  | .func ref => ref.text
  | .host name | .strayFunc name | .strayHost name => name

end Callee

/-- What an instruction carries beside its operands and its number. -/
inductive Aux where
  | text (s : String)
  | callee (c : Callee)
  | layout (l : ClassLayout)
  deriving Repr, Inhabited

namespace Aux

/-- The text shown for what an instruction carries. -/
def shown : Aux → String
  | .text s => s
  | .callee c => c.text
  | .layout l => l.name

end Aux

/-- One instruction. `id` is its label, `block` the number of the block that it
belongs to, and an operand that is missing is `none`. -/
structure Instr where
  id : Nat
  op : Op
  type : Option Ty := none
  args : List (Option Nat) := []
  block : Nat
  number : Int64 := 0
  float : Double := Double.zero false
  aux : Option Aux := none
  pos : Pos := Pos.none
  deriving Repr, Inhabited

namespace Instr

/-- The callee of a direct call. -/
def callee? (v : Instr) : Option Callee :=
  match v.aux with
  | some (.callee c) => some c
  | _ => none

/-- The layout that an instruction carries. -/
def layout? (v : Instr) : Option ClassLayout :=
  match v.aux with
  | some (.layout l) => some l
  | _ => none

/-- The text that an instruction carries, empty if there is none. -/
def name (v : Instr) : String :=
  match v.aux with
  | some (.text s) => s
  | _ => ""

/-- The label of an instruction. -/
def label (v : Instr) : String := s!"v{v.id}"

end Instr

/-- How a block ends. -/
inductive BlockKind where
  | invalid
  /-- Control goes to the only successor. -/
  | plain
  /-- Control goes to the first successor if the condition holds, else to the
  second. -/
  | branch
  /-- The function returns. -/
  | ret
  | unlisted (code : Int)
  deriving DecidableEq, Repr, Inhabited

namespace BlockKind

/-- Every kind, in the order of their codes. -/
def all : List BlockKind := [.invalid, .plain, .branch, .ret]

/-- The kind with code `code`. -/
def ofCode (code : Int) : BlockKind :=
  if code < 0 then .unlisted code else (all[code.toNat]?).getD (.unlisted code)

/-- The word for a kind. A negative code has none. -/
def text? : BlockKind → Option String
  | .invalid => some "invalid"
  | .plain => some "plain"
  | .branch => some "if"
  | .ret => some "ret"
  | .unlisted code => if code < 0 then none else some "unknown"

/-- The word for a kind as messages show it. -/
def text (k : BlockKind) : String :=
  match k with
  | .unlisted code =>
    if code < 0 then
      s!"%!s(PANIC=String method: runtime error: index out of range [{code}])"
    else "unknown"
  | k => k.text?.getD ""

end BlockKind

/-- A basic block. `owned` tells whether it belongs to the function it is in. -/
structure Block where
  id : Nat
  kind : BlockKind := .plain
  controls : List (Option Nat) := []
  succs : List Nat := []
  preds : List Nat := []
  values : List Nat := []
  owned : Bool := true
  deriving Repr, Inhabited

namespace Block

/-- The label of a block. -/
def label (b : Block) : String := s!"b{b.id}"

/-- Whether the end of a block has been decided. -/
def terminated (b : Block) : Bool := b.kind ≠ .plain || !b.succs.isEmpty

end Block

/-- A function as a graph. `order` lists its blocks; the arena may hold blocks
that are no longer part of it. A function built by hand may lack its signature
or its entry. -/
structure Func where
  name : String
  ref : Option FuncRef := none
  sig : Option Signature := none
  recv : Option Ty := none
  entry : Option Nat := some 0
  order : List Nat := []
  blocks : Array Block := #[]
  instrs : Array Instr := #[]
  deriving Repr, Inhabited

namespace Func

/-- Whether a function is a method. -/
def isMethod (f : Func) : Bool := f.recv.isSome

/-- The block with number `i`. -/
def block? (f : Func) (i : Nat) : Option Block := f.blocks[i]?

/-- The instruction with number `i`. -/
def instr? (f : Func) (i : Nat) : Option Instr := f.instrs[i]?

/-- The successors of block `i`. -/
def succs (f : Func) (i : Nat) : List Nat := ((f.block? i).map (·.succs)).getD []

/-- The predecessors of block `i`. -/
def preds (f : Func) (i : Nat) : List Nat := ((f.block? i).map (·.preds)).getD []

/-- The instructions of block `i`. -/
def values (f : Func) (i : Nat) : List Nat := ((f.block? i).map (·.values)).getD []

/-- The label of block `i`. -/
def blockLabel (f : Func) (i : Nat) : String := ((f.block? i).map (·.label)).getD ""

/-- The label of instruction `i`. -/
def label (f : Func) (i : Nat) : String := ((f.instr? i).map (·.label)).getD ""

/-- The number of instructions in the blocks of a function. -/
def size (f : Func) : Nat := f.order.foldl (fun n b => n + (f.values b).length) 0

/-- How often an instruction is an operand or the first control of a block. -/
def uses (f : Func) (i : Nat) : Nat :=
  f.instrs.toList.foldl (fun n v => n + v.args.count (some i)) 0
    + (f.blocks.toList.filter fun b => b.controls.head? = some (some i)).length

end Func

/-- A host function as a unit declares it. -/
structure HostDecl where
  name : String
  sig : Signature
  deriving Repr, Inhabited

/-- A unit as graphs, with its layouts. -/
structure Program where
  layouts : Layouts
  hosts : List HostDecl
  funcs : List Func

instance : Inhabited Program := ⟨⟨default, [], []⟩⟩

namespace Program

/-- The function with a given name; that of a method starts with its class. -/
def named? (p : Program) (name : String) : Option Func := p.funcs.find? (·.name = name)

/-- The function or method that `ref` refers to. -/
def func? (p : Program) (ref : FuncRef) : Option Func :=
  p.funcs.find? (·.ref = some ref)

/-- The name of the function where a program starts. -/
def entryPoint : String := "main"

/-- The function where a program starts. -/
def main? (p : Program) : Option Func :=
  p.funcs.find? fun f => !f.isMethod && f.name = entryPoint

end Program

end ClassLang.Graph

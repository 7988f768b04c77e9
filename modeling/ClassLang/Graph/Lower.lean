import ClassLang.Graph.Builder
import ClassLang.Typed

/-!
From a checked unit to graphs. Operands are computed from left to right, a
constant expression becomes one instruction, and the logical operators become
branches.
-/

namespace ClassLang.Graph

namespace Op

/-- The operation of an operator on integers and truth values. -/
def ofInt : BinaryOp → Op
  | .add => .add64
  | .sub => .sub64
  | .mul => .mul64
  | .div => .div64
  | .rem => .mod64
  | .eql => .eq64
  | .neq => .neq64
  | .lss => .lt64
  | .leq => .leq64
  | .gtr => .gt64
  | .geq => .geq64
  | .or | .and => .invalid

/-- The operation of an operator on floats. -/
def ofFloat : BinaryOp → Op
  | .add => .addF64
  | .sub => .subF64
  | .mul => .mulF64
  | .div => .divF64
  | .eql => .eqF64
  | .neq => .neqF64
  | .lss => .ltF64
  | .leq => .leqF64
  | .gtr => .gtF64
  | .geq => .geqF64
  | .rem | .or | .and => .invalid

/-- The operation of an operator on texts. -/
def ofStr : BinaryOp → Op
  | .eql => .eqStr
  | .neq => .neqStr
  | _ => .invalid

/-- The operation of an operator on operands of a type. -/
def ofBinary (op : BinaryOp) : Ty → Op
  | .float => ofFloat op
  | .str => ofStr op
  | _ => ofInt op

/-- The fault of an operator that is not defined on operands of a type. -/
def binaryFault (op : BinaryOp) : Ty → Fault
  | .float => .floatOperator op
  | .str => .textOperator op
  | _ => .intOperator op

/-- The operation of an operator on an operand of a type. -/
def ofUnary : UnaryOp → Ty → Op
  | .not, _ => .not
  | .neg, .float => .negF64
  | .neg, _ => .neg64

end Op

namespace Lower

open Build

/-- The offset of the field `name` that is selected from `x`. -/
def fieldOffset (ls : Layouts) (x : Typed.Expr) (name : String) : Build Int64 := do
  match x.ty.className? with
  | none =>
    fault (.notObject x.erase.text)
    return 0
  | some cls =>
    let offset := (ls.named? cls).bind fun l => (l.field? name).map (·.offset)
    return Int64.ofInt (← require offset (.noField cls name) 0)

/-- The fault of a constant that has not the type it should have. -/
def constantFault? : Ty → Constant → Option Fault
  | .int, .int n => if Constant.minInt ≤ n ∧ n ≤ Constant.maxInt then none else some (.constantRange n)
  | .float, .float _ | .bool, .bool _ | .str, .str _ => none
  | ty, _ => some (.constantType ty)

/-- A constant. -/
def constant (ty : Ty) (pos : Pos) (c : Constant) : Build Nat := do
  match constantFault? ty c with
  | some x => fault x
  | none => pure ()
  match c with
  | .int n => emitWith .const64 (some ty) [] pos (Int64.ofInt n) none
  | .float q => emitFloat (some ty) pos (Double.ofRat q)
  | .bool b => emitWith .constBool (some ty) [] pos (if b then 1 else 0) none
  | .str s => emitWith .constString (some ty) [] pos 0 (some (.text s))

/-- What a call of a function names. -/
def calleeOf : Symbol → Callee
  | .func id true => .host id.text
  | .func id false => .func (.func id.text)
  | _ => .strayFunc ""

/-- A call of a method through the dispatch table of its receiver. -/
def virtualCall (ls : Layouts) (name : String) (sig : Signature) (pos : Pos) (recv : Nat)
    (args : List Nat) : Build Nat := do
  let slot ← require (ls.slot? name) (.noDispatchSlot name) 0
  let table ← emit .dispatchTable none [recv] pos
  let entry ← emitWith .dispatchEntry (some sig.ty) [table] pos (Int64.ofInt slot)
    (some (.text name))
  emit .callIndirect (some sig.result) (entry :: recv :: args) pos

/-- Joins the paths of a logical operator. The right operand has just been
computed in the current block; `shortValue` is the value of the path without
it. -/
def join (pos : Pos) (shortValue right merge : Nat) : Build Nat := do
  jump merge
  enter (some merge)
  emitAt merge .phi (some .bool) [shortValue, right] pos 0 none

mutual

/-- Computes an expression. -/
def expr (ls : Layouts) : Typed.Expr → Build Nat
  | .var id v => do
    let slot ← slotOf v
    emit .load (some v.ty) [slot] id.pos
  | .const id _ ty value => constant ty id.pos value
  | .literal pos _ _ ty value => constant ty pos value
  | .unary pos op x ty value => do
    match value with
    | some c => constant ty pos c
    | none =>
      let i ← expr ls x
      emit (Op.ofUnary op x.ty) (some x.ty) [i] pos
  | .binary op x y ty value => do
    match value with
    | some c => constant ty x.pos c
    | none =>
      if op = .and || op = .or then
        let left ← expr ls x
        let right ← newBlock
        let short ← newBlock
        let merge ← newBlock
        if op = .and then branch left right short else branch left short right
        let shortValue ←
          emitAt short .constBool (some .bool) [] Pos.none (if op = .and then 0 else 1) none
        addEdge short merge
        enter (some right)
        let i ← expr ls y
        join x.pos shortValue i merge
      else
        let i ← expr ls x
        let j ← expr ls y
        if Op.ofBinary op x.ty = .invalid then fault (Op.binaryFault op x.ty)
        emit (Op.ofBinary op x.ty) (some ty) [i, j] x.pos
  | .call fn sym _ sig args => do
    let is ← exprs ls args
    emitWith .callDirect (some sig.result) is fn.pos 0 (some (.callee (calleeOf sym)))
  | .invoke x sel kind m sig args => do
    let i ← expr ls x
    let is ← exprs ls args
    if kind = .direct then
      emitWith .callDirect (some sig.result) (i :: is) x.pos 0 (some (.callee (.func m.ref)))
    else
      virtualCall ls sel.text sig x.pos i is
  | .field x sel _ ty => do
    let i ← expr ls x
    let offset ← fieldOffset ls x sel.text
    emitWith .loadField (some ty) [i] sel.pos offset (some (.text sel.text))
  | .init cls _ ty _ elems => do
    let l ← require (ls.named? cls.text) (.noLayout cls.text) default
    let i ← emitWith .alloc (some ty) [] cls.pos (Int64.ofInt l.size) (some (.layout l))
    fill ls l i elems
    discard (emitWith .setDispatch none [i] Pos.none 0 (some (.layout l)))
    return i
  | .paren pos x => do
    match x.value? with
    | some c => constant x.ty pos c
    | none => expr ls x

/-- Computes expressions from left to right. -/
def exprs (ls : Layouts) : List Typed.Expr → Build (List Nat)
  | [] => return []
  | x :: rest => do
    let i ← expr ls x
    let is ← exprs ls rest
    return i :: is

/-- Stores the elements of an initializer into the object `obj` with layout
`l`, in the order in which they are written. -/
def fill (ls : Layouts) (l : ClassLayout) (obj : Nat) :
    List (Ident × Typed.Expr) → Build Unit
  | [] => return
  | (key, value) :: rest => do
    let offset ← require ((l.field? key.text).map (·.offset)) (.noElement l.name key.text) 0
    let i ← expr ls value
    discard (emitWith .storeField none [obj, i] key.pos (Int64.ofInt offset)
      (some (.text key.text)))
    fill ls l obj rest

end

/-- Gives a variable a slot and stores a value into it. -/
def bindVar (v : Var) (value : Nat) (pos : Pos) : Build Unit := do
  let slot ← newSlot v
  discard (emit .store none [slot, value] pos)

/-- The kind of an expression that is neither a variable nor a field. -/
def kindText : Typed.Expr → String
  | .var .. | .const .. => "*syntax.Name"
  | .literal .. => "*syntax.BasicLit"
  | .unary .. | .binary .. => "*syntax.Operation"
  | .call .. | .invoke .. => "*syntax.CallExpr"
  | .field .. => "*syntax.SelectorExpr"
  | .init .. => "*syntax.InitExpr"
  | .paren .. => "*syntax.ParenExpr"

/-- An assignment to a variable or a field. -/
def assign (ls : Layouts) (lhs rhs : Typed.Expr) : Build Unit := do
  match lhs.unparen with
  | .var _ v =>
    let slot ← slotOf v
    let i ← expr ls rhs
    discard (emit .store none [slot, i] lhs.pos)
  | .field x sel _ _ =>
    let obj ← expr ls x
    let i ← expr ls rhs
    let offset ← fieldOffset ls x sel.text
    discard (emitWith .storeField none [obj, i] lhs.pos offset (some (.text sel.text)))
  | x => fault (.notAssignable (kindText x))

/-- Adds one to a counting variable. -/
def increment (slot : Nat) : Build Unit := do
  let i ← emit .load (some .int) [slot] Pos.none
  let one ← emitWith .const64 (some .int) [] Pos.none 1 none
  let next ← emit .add64 (some .int) [i, one] Pos.none
  discard (emit .store none [slot, next] Pos.none)

/-- Goes on behind a statement with two branches, unless neither gets there. -/
def rejoin (done : Nat) : Build Unit := do
  if ((← get).func.preds done).isEmpty then
    removeBlock done
    enter none
  else
    enter (some done)

mutual

/-- Runs a statement. -/
def stmt (ls : Layouts) : Typed.Stmt → Build Unit
  | .empty _ => return
  | .expr x => discard (expr ls x)
  | .bind pos v _ value => do
    let i ← expr ls value
    bindVar v i pos
  | .assign lhs rhs => assign ls lhs rhs
  | .block body => block ls body
  | .ifElse cond body none => do
    let c ← expr ls cond
    let yes ← newBlock
    let done ← newBlock
    branch c yes done
    enter (some yes)
    block ls body
    jump done
    rejoin done
  | .ifElse cond body (some other) => do
    let c ← expr ls cond
    let yes ← newBlock
    let done ← newBlock
    let no ← newBlock
    branch c yes no
    enter (some yes)
    block ls body
    jump done
    enter (some no)
    stmt ls other
    jump done
    rejoin done
  | .whileLoop cond body => do
    let header ← newBlock
    let inside ← newBlock
    let done ← newBlock
    jump header
    enter (some header)
    let c ← expr ls cond
    branch c inside done
    enter (some inside)
    block ls body
    jump header
    enter (some done)
  | .forLoop pos v _ low high body => do
    let first ← expr ls low
    let last ← expr ls high
    bindVar v first pos
    let slot ← slotOf v
    let header ← newBlock
    let inside ← newBlock
    let done ← newBlock
    jump header
    enter (some header)
    let i ← emit .load (some .int) [slot] Pos.none
    let c ← emit .leq64 (some .bool) [i, last] Pos.none
    branch c inside done
    enter (some inside)
    block ls body
    if (← get).current.isSome then
      increment slot
      jump header
    enter (some done)
  | .ret _ result => do
    match result with
    | none => ret none
    | some x =>
      let i ← expr ls x
      ret (some i)
    enter none

/-- Runs a block. -/
def block (ls : Layouts) : Typed.Block → Build Unit
  | .mk list => stmts ls list

/-- Runs statements up to the first that returns. -/
def stmts (ls : Layouts) : List Typed.Stmt → Build Unit
  | [] => return
  | s :: rest => do
    if (← get).current.isSome then
      stmt ls s
      stmts ls rest

end

/-- Stores an argument into a slot of its own. The receiver has index -1. -/
def parameter (v : Var) (index : Int64) : Build Unit := do
  let i ← emitAt 0 .arg (some v.ty) [] v.pos index (some (.text v.name))
  let slot ← newSlot v
  discard (emitAt 0 .store none [slot, i] Pos.none 0 none)

/-- Stores all arguments into slots. -/
def parameters : Nat → List Var → Build Unit
  | _, [] => return
  | n, v :: rest => do
    parameter v (Int64.ofNat n)
    parameters (n + 1) rest

/-- The whole of a function. A block that is still open at the end returns. -/
def funcBody (ls : Layouts) (f : Typed.Func) (body : Typed.Block) : Build Unit := do
  match f.header.recv with
  | some v => parameter v (-1)
  | none => if f.decl.recv.isSome then fault (.noReceiver f.ref.text)
  parameters 0 (f.header.params.map (·.1))
  block ls body
  match (← get).current with
  | none => return
  | some b =>
    if !(((← get).func.block? b).map (·.terminated)).getD true then ret none

end Lower

namespace Func

/-- The construction of the graph of a checked function with a body. -/
def lowered (ls : Layouts) (f : Typed.Func) (body : Typed.Block) : Builder :=
  let start := Builder.start f.ref.text f.ref f.header.sig (f.header.recv.map (·.ty))
  ((Lower.funcBody ls f body).run start).2

/-- The graph of a checked function with a body. -/
def ofTyped (ls : Layouts) (f : Typed.Func) (body : Typed.Block) : Func :=
  (lowered ls f body).func

end Func

namespace Program

/-- The graphs of a checked unit. -/
def ofTyped (f : Typed.File) (ls : Layouts) : Program :=
  { layouts := ls
    hosts := f.hosts.map fun h => ⟨h.decl.name.text, h.header.sig⟩
    funcs := f.bodies.filterMap fun g => g.body.map (Func.ofTyped ls g) }

/-- The faults that stop the construction of the graphs of a unit. -/
def faults (f : Typed.File) (ls : Layouts) : List Fault :=
  f.bodies.flatMap fun g =>
    match g.body with
    | none => [.noBody g.ref.text]
    | some body => (Func.lowered ls g body).faults

end Program

end ClassLang.Graph

import ClassLang.Graph.Dominance
import ClassLang.Llvm.Module

/-!
Modules of LLVM from programs. An object is a pointer to bytes: a header with its
descriptor and its dispatch table, and then its fields at the offsets of its
layout. Every class has two constants, its descriptor and its dispatch table.

A division branches to a failure if the divisor is zero. A divisor of minus one
is replaced by one, since dividing the least integer by minus one is undefined;
the quotient is then the negated dividend and the remainder zero.

Graphs that were verified always have a module. One that was built by hand may be
refused, or lack a part that is needed.
-/

namespace ClassLang.Llvm

/-- What a graph lacks that has no place in a module. -/
inductive Fault where
  | missingPart
  | notEmitted (operand : String)
  | noType (type : String)
  | storeAddress (type : Ty)
  | storeType (value address : Ty)
  | calleePointer (type : Ty)
  | calleeFunction (type : Ty)
  | intOperand (type : Ty)
  | floatOperand (type : Ty)
  | elementBase (type : Ty)
  deriving Repr

namespace Fault

/-- The wording of a fault. A missing part has none. -/
def message? : Fault → Option String
  | .missingPart => none
  | .notEmitted operand => some s!"codegen.operand: {operand} used before it was lowered"
  | .noType type => some s!"codegen.llvmType: unhandled type {type}"
  | .storeAddress type =>
    some s!"invalid store dst operand type; expected *types.Pointer, got {type.family}"
  | .storeType value address =>
    some s!"store operands are not compatible: src={value.text}; dst={address.text}"
  | .calleePointer type =>
    some s!"invalid callee type; expected *types.PointerType, got {type.family}"
  | .calleeFunction type =>
    some s!"invalid callee type; expected *types.FuncType, got {type.family}"
  | .intOperand type =>
    some ("invalid icmp operand type; expected *types.IntType, *types.PointerType or "
      ++ s!"*types.VectorType, got {type.family}")
  | .floatOperand type =>
    some ("invalid fcmp operand type; expected *types.FloatType or *types.VectorType, got "
      ++ type.family)
  | .elementBase type =>
    some ("invalid gep source type; expected pointer or vector of pointers type, got "
      ++ type.family)

end Fault

/-- Why a function has no place in a module. -/
inductive Refusal where
  | undeclared (callee : String)
  | unhandledOp (op : Graph.Op)
  | noSignature (instr : String)
  | blockKind (block : String) (kind : Graph.BlockKind)
  deriving Repr

namespace Refusal

/-- The wording of a refusal. -/
def message : Refusal → String
  | .undeclared callee => s!"call of undeclared {callee}"
  | .unhandledOp op => s!"unhandled op {op.text}"
  | .noSignature instr => s!"{instr} has no signature"
  | .blockKind block kind => s!"block {block} has kind {kind.text}"

end Refusal

/-- Why a program has no module. -/
inductive EmitError where
  | refused (func : String) (why : Refusal)
  | fault (f : Fault)
  deriving Repr

namespace EmitError

/-- The wording of an error. -/
def message? : EmitError → Option String
  | .refused func why => some s!"codegen: {func}: {why.message}"
  | .fault f => f.message?

end EmitError

/-! Types and symbols -/

/-- The type of values of a type of the language. -/
def valueType (t : ClassLang.Ty) : Except EmitError Ty :=
  match Ty.ofTy? t with
  | some type => .ok type
  | none => .error (.fault (.noType t.text))

/-- The type of the result of an instruction; one without a type has none. -/
def typeOf (t : Option ClassLang.Ty) : Except EmitError Ty := valueType (t.getD .missing)

/-- The type of a method with a given signature, which takes its receiver first. -/
def methodType (s : Signature) : Except EmitError Ty := do
  let params ← s.params.mapM fun p => valueType p.ty
  return .func (← valueType s.result) (.bytes :: params)

/-- The declaration of a function with a given signature. -/
def declare (name : String) (sig : Option Signature) (method : Bool) :
    Except EmitError Func := do
  match sig with
  | none => throw (.fault .missingPart)
  | some s =>
    let result ← valueType s.result
    let params ← s.params.mapM fun p => return (⟨p.name, ← valueType p.ty⟩ : Param)
    return { name, params := (if method then [⟨"self", .bytes⟩] else []) ++ params, result }

/-- The symbol of a function of the program. -/
def symbol (f : Graph.Func) : String :=
  if !f.isMethod && f.name = Graph.Program.entryPoint then mainSymbol else f.name

/-- The declarations that calls refer to. -/
structure Declared where
  hosts : List Func
  funcs : List (Option FuncRef × Func)

namespace Declared

/-- Declares the host functions and the functions of a program. -/
def ofProgram (p : Graph.Program) : Except EmitError Declared := do
  let hosts ← p.hosts.mapM fun h => declare h.name (some h.sig) false
  let funcs ← p.funcs.mapM fun f => return (f.ref, ← declare (symbol f) f.sig f.isMethod)
  return ⟨hosts, funcs⟩

/-- The declaration of what a call names. -/
def find? (d : Declared) : Option Graph.Callee → Option Func
  | some (.func ref) => d.funcs.lookup (some ref)
  | some (.host name) => d.hosts.find? (·.name = name)
  | some (.strayFunc _) | some (.strayHost _) | none => none

end Declared

/-! Writing a function -/

/-- The function that is being written, with its graph. `order` lists the blocks
that control can reach; they come first and in this order. -/
structure Context where
  declared : Declared
  graph : Graph.Func
  head : Func
  order : List Nat

/-- What has been written so far. `results` holds the operand for each
instruction of the graph, `ends` the block in which each block of the graph ends,
and `phis` the instructions whose operands are still to be filled in. -/
structure Writer where
  blocks : Array Block
  current : Nat := 0
  next : Nat := 0
  splits : Nat := 0
  results : Array (Option Operand)
  ends : List (Nat × Nat) := []
  phis : List (Nat × Graph.Instr) := []
  literals : List String

/-- A step of writing. -/
abbrev Write (α : Type) := StateT Writer (Except EmitError) α

namespace Write

/-- Gives up because the graph lacks something. -/
def fault {α : Type} (f : Fault) : Write α := throw (.fault f)

/-- Adds an empty block. -/
def newBlock (label : String) : Write Nat :=
  modifyGet fun s => (s.blocks.size, { s with blocks := s.blocks.push { label } })

/-- Makes `b` the block that instructions go to. -/
def enter (b : Nat) : Write Unit := modify fun s => { s with current := b }

/-- Adds an instruction to the current block. -/
def emit (i : Instr) : Write Operand :=
  modifyGet fun s =>
    let line : Line := ⟨s.next, i⟩
    (.result s.next i.type,
      { s with
        next := s.next + 1
        blocks := s.blocks.modify s.current fun b => { b with lines := b.lines ++ [line] } })

/-- Ends the current block. -/
def close (t : Terminator) : Write Unit :=
  modify fun s =>
    { s with blocks := s.blocks.modify s.current fun b => { b with terminator := some t } }

/-- Adds a store, whose address points to values of the type that is stored. -/
def store (value address : Operand) : Write Unit := do
  match address.type with
  | .ptr elem =>
    if value.type.same elem then discard (emit (.store value address))
    else fault (.storeType value.type address.type)
  | type => fault (.storeAddress type)

/-- Adds a call of a function. -/
def call (callee : Operand) (args : List Operand) : Write Operand := do
  match callee.type with
  | .ptr (.func ..) => emit (.call callee args)
  | .ptr type => fault (.calleeFunction type)
  | type => fault (.calleePointer type)

/-- Adds a comparison of integers or pointers. -/
def icmp (pred : IntPred) (x y : Operand) : Write Operand := do
  match x.type with
  | .int _ | .ptr _ => emit (.icmp pred x y)
  | type => fault (.intOperand type)

/-- Adds a comparison of floating-point numbers. -/
def fcmp (pred : FloatPred) (x y : Operand) : Write Operand := do
  match x.type with
  | .double => emit (.fcmp pred x y)
  | type => fault (.floatOperand type)

/-- The address of a text constant, which is defined when it is first used. -/
def literal (s : String) : Write Operand :=
  modifyGet fun w =>
    let i := w.literals.idxOf s
    let literals := if w.literals.contains s then w.literals else w.literals ++ [s]
    (.firstByte (literalSymbol i) (s.utf8ByteSize + 1), { w with literals })

/-- Adds the address of an element behind a pointer. -/
def element (type : Ty) (base : Operand) (index : Int) : Write Operand := do
  match base.type with
  | .ptr _ => emit (.element type base (.word index))
  | other => fault (.elementBase other)

/-- The address of the word at byte `offset` of an object, as a pointer to values
of type `elem`. -/
def fieldAddress (object : Operand) (offset : Int) (elem : Ty) : Write Operand := do
  let p ← element .i8 object offset
  emit (.bitcast p (.ptr elem))

/-- The operand for instruction `i` of the graph. -/
def operand (c : Context) (i : Option Nat) : Write Operand := do
  match i with
  | none => fault (.notEmitted "<nil>")
  | some i =>
    match (← get).results.getD i none with
    | some x => return x
    | none => fault (.notEmitted (c.graph.label i))

/-- Operand number `k` of an instruction. -/
def argument (c : Context) (v : Graph.Instr) (k : Nat) : Write Operand := do
  match v.args[k]? with
  | some i => operand c i
  | none => fault .missingPart

/-- Fails if `y` is zero, with the place of the division. What follows goes to a
new block. -/
def checkDivisor (pos : Pos) (y : Operand) : Write Unit := do
  modify fun s => { s with splits := s.splits + 1 }
  let n := (← get).splits
  let failing ← newBlock s!"divzero.{n}"
  let ok ← newBlock s!"divok.{n}"
  let isZero ← icmp .eq y (.word 0)
  close (.branch isZero failing ok)
  let place := if pos.isValid then pos.text ++ ": " else ""
  let message ← literal (place ++ "integer divide by zero")
  enter failing
  discard (call abort.address [message])
  close .unreachable
  enter ok

/-- The quotient of `x` by `y`, which is not zero. -/
def quotient (x y : Operand) : Write Operand := do
  let minusOne ← icmp .eq y (.word (-1))
  let safe ← emit (.select minusOne (.word 1) y)
  let q ← emit (.binary .sdiv x safe)
  let negated ← emit (.binary .sub (.word 0) x)
  emit (.select minusOne negated q)

/-- The remainder of `x` by `y`, which is not zero. -/
def remainder (x y : Operand) : Write Operand := do
  let minusOne ← icmp .eq y (.word (-1))
  let safe ← emit (.select minusOne (.word 1) y)
  let r ← emit (.binary .srem x safe)
  emit (.select minusOne (.word 0) r)

/-- An operation on the two operands of an instruction. -/
def binary (c : Context) (v : Graph.Instr) (op : BinaryOp) : Write Operand := do
  let x ← argument c v 0
  emit (.binary op x (← argument c v 1))

/-- A comparison of the two integers that are the operands of an instruction. -/
def compareInts (c : Context) (v : Graph.Instr) (pred : IntPred) : Write Operand := do
  let x ← argument c v 0
  icmp pred x (← argument c v 1)

/-- A comparison of the two floating-point numbers that are the operands of an
instruction. -/
def compareFloats (c : Context) (v : Graph.Instr) (pred : FloatPred) : Write Operand := do
  let x ← argument c v 0
  fcmp pred x (← argument c v 1)

/-- Tells whether the texts that are the operands of an instruction are equal. -/
def compareStrings (c : Context) (v : Graph.Instr) (pred : IntPred) : Write Operand := do
  let x ← argument c v 0
  let order ← call compareTexts.address [x, ← argument c v 1]
  icmp pred order (.int 32 0)

/-- The parameter that an instruction stands for. The receiver comes first. -/
def parameter (c : Context) (v : Graph.Instr) : Write Operand := do
  let i := v.number.toInt + (if c.graph.isMethod then 1 else 0)
  match if i < 0 then none else c.head.params[i.toNat]? with
  | some p => return .param i.toNat p.type
  | none => fault .missingPart

/-- The layout that an instruction carries. -/
def layout (v : Graph.Instr) : Write ClassLayout := do
  match v.layout? with
  | some l => return l
  | none => fault .missingPart

/-- Gives up because a function has no place in a module. -/
def refuse {α : Type} (c : Context) (why : Refusal) : Write α := throw (.refused c.graph.name why)

/-- The function that a direct call names. -/
def callee (c : Context) (v : Graph.Instr) : Write Operand := do
  match c.declared.find? v.callee?, v.callee? with
  | some f, _ => return f.address
  | none, some callee => refuse c (.undeclared callee.text)
  | none, none => fault .missingPart

/-- Writes one instruction, and gives the operand for its result if it has one. -/
def instr (c : Context) (v : Graph.Instr) : Write (Option Operand) := do
  match v.op with
  | .const64 => return some (.word v.number.toInt)
  | .constFloat => return some (.double v.float)
  | .constBool => return some (.bool (v.number ≠ 0))
  | .constString => return some (← literal v.name)
  | .arg => return some (← parameter c v)
  | .alloca => return some (← emit (.alloca (← typeOf v.type)))
  | .load =>
    let type ← typeOf v.type
    return some (← emit (.load type (← argument c v 0)))
  | .store =>
    let value ← argument c v 1
    store value (← argument c v 0)
    return none
  | .add64 => return some (← binary c v .add)
  | .sub64 => return some (← binary c v .sub)
  | .mul64 => return some (← binary c v .mul)
  | .div64 =>
    let y ← argument c v 1
    checkDivisor v.pos y
    return some (← quotient (← argument c v 0) y)
  | .mod64 =>
    let y ← argument c v 1
    checkDivisor v.pos y
    return some (← remainder (← argument c v 0) y)
  | .neg64 => return some (← emit (.binary .sub (.word 0) (← argument c v 0)))
  | .addF64 => return some (← binary c v .fadd)
  | .subF64 => return some (← binary c v .fsub)
  | .mulF64 => return some (← binary c v .fmul)
  | .divF64 => return some (← binary c v .fdiv)
  | .negF64 => return some (← emit (.fneg (← argument c v 0)))
  | .not => return some (← emit (.binary .xor (← argument c v 0) (.bool true)))
  | .eq64 => return some (← compareInts c v .eq)
  | .neq64 => return some (← compareInts c v .ne)
  | .lt64 => return some (← compareInts c v .slt)
  | .leq64 => return some (← compareInts c v .sle)
  | .gt64 => return some (← compareInts c v .sgt)
  | .geq64 => return some (← compareInts c v .sge)
  | .eqF64 => return some (← compareFloats c v .oeq)
  | .neqF64 => return some (← compareFloats c v .one)
  | .ltF64 => return some (← compareFloats c v .olt)
  | .leqF64 => return some (← compareFloats c v .ole)
  | .gtF64 => return some (← compareFloats c v .ogt)
  | .geqF64 => return some (← compareFloats c v .oge)
  | .eqStr => return some (← compareStrings c v .eq)
  | .neqStr => return some (← compareStrings c v .ne)
  | .phi =>
    let type ← typeOf v.type
    modify fun s => { s with phis := s.phis ++ [(s.next, v)] }
    return some (← emit (.phi type []))
  | .alloc =>
    let l ← layout v
    let descriptor : Operand :=
      .firstByte (descriptorSymbol l.name) (l.descriptor.utf8ByteSize + 1)
    return some (← call allocate.address [.word v.number.toInt, descriptor])
  | .loadField =>
    let type ← typeOf v.type
    let address ← fieldAddress (← argument c v 0) v.number.toInt type
    return some (← emit (.load type address))
  | .storeField =>
    let value ← argument c v 1
    store value (← fieldAddress (← argument c v 0) v.number.toInt value.type)
    return none
  | .setDispatch =>
    let l ← layout v
    let table : Operand :=
      .cast (.global (dispatchSymbol l.name) (.array l.dispatch.length .bytes)) .bytes
    store table (← fieldAddress (← argument c v 0) dispatchOffset .bytes)
    return none
  | .callDirect =>
    let f ← callee c v
    return some (← call f (← v.args.mapM (operand c)))
  | .dispatchTable =>
    let slot ← fieldAddress (← argument c v 0) dispatchOffset .bytes
    let table ← emit (.load .bytes slot)
    return some (← emit (.bitcast table (.ptr .bytes)))
  | .dispatchEntry =>
    match v.type.bind Signature.ofTy? with
    | some sig =>
      let p ← element .bytes (← argument c v 0) v.number.toInt
      let impl ← emit (.load .bytes p)
      return some (← emit (.bitcast impl (.ptr (← methodType sig))))
    | none => refuse c (.noSignature v.label)
  | .callIndirect =>
    let f ← argument c v 0
    return some (← call f (← (v.args.drop 1).mapM (operand c)))
  | .invalid | .unlisted => refuse c (.unhandledOp v.op)

/-- Writes instruction `i` of the graph and keeps the operand for its result. -/
def value (c : Context) (i : Nat) : Write Unit := do
  match c.graph.instr? i with
  | none => fault .missingPart
  | some v =>
    match ← instr c v with
    | some x => modify fun s => { s with results := s.results.setIfInBounds i (some x) }
    | none => return

/-- The block that block `b` of the graph starts as. -/
def target (c : Context) (b : Option Nat) : Write Nat := do
  match b with
  | some b => return c.order.idxOf b
  | none => fault .missingPart

/-- Writes the end of a block. -/
def terminate (c : Context) (b : Graph.Block) : Write Unit := do
  match b.kind with
  | .plain => close (.jump (← target c b.succs[0]?))
  | .branch =>
    match b.controls with
    | cond :: _ =>
      let cond ← operand c cond
      let yes ← target c b.succs[0]?
      close (.branch cond yes (← target c b.succs[1]?))
    | [] => fault .missingPart
  | .ret =>
    match b.controls with
    | some x :: _ => close (.ret (some (← operand c (some x))))
    | _ => close (.ret none)
  | kind => refuse c (.blockKind b.label kind)

/-- Writes block `b` of the graph. -/
def block (c : Context) (b : Nat) : Write Unit := do
  match c.graph.block? b with
  | none => fault .missingPart
  | some x =>
    enter (c.order.idxOf b)
    x.values.forM (value c)
    modify fun s => { s with ends := (b, s.current) :: s.ends }
    terminate c x

/-- The operands of a phi that come from blocks that control can reach. -/
def incoming (c : Context) (v : Graph.Instr) : Write (List (Operand × Nat)) := do
  let s ← get
  let pairs ← v.args.zipIdx.mapM fun (arg, k) => do
    match (c.graph.preds v.block)[k]? with
    | none => fault .missingPart
    | some p =>
      match s.ends.lookup p with
      | none => return none
      | some stop =>
        match arg.bind fun i => s.results.getD i none with
        | some x => return some (x, stop)
        | none => fault .missingPart
  return pairs.filterMap id

/-- Fills in the operands of the phi with number `number`. -/
def fillPhi (c : Context) (number : Nat) (v : Graph.Instr) : Write Unit := do
  let pairs ← incoming c v
  let fill (l : Line) : Line :=
    if l.number = number then { l with instr := .phi l.instr.type pairs } else l
  modify fun s =>
    { s with blocks := s.blocks.map fun b => { b with lines := b.lines.map fill } }

/-- Writes a whole function. -/
def body (c : Context) : Write (List Block) := do
  c.order.forM (block c)
  (← get).phis.forM fun (number, v) => fillPhi c number v
  return (← get).blocks.toList

end Write

/-! Programs -/

/-- The function of a graph, given the text constants defined so far. -/
def emitFunc (d : Declared) (f : Graph.Func) (literals : List String) :
    Except EmitError (Func × List String) := do
  match d.funcs.lookup f.ref, f.entry with
  | some head, some _ =>
    let order := f.reversePostOrder
    let reached := order.map fun b => ({ label := f.blockLabel b } : Block)
    let others := (f.order.filter fun b => !order.contains b).map fun b =>
      ({ label := f.blockLabel b, terminator := some .unreachable } : Block)
    let start : Writer :=
      { blocks := (reached ++ others).toArray
        results := Array.replicate f.instrs.size none
        literals }
    let (blocks, w) ← (Write.body { declared := d, graph := f, head, order }).run start
    return ({ head with blocks }, w.literals)
  | _, _ => throw (.fault .missingPart)

/-- The functions of graphs, given the text constants defined so far. -/
def emitFuncs (d : Declared) : List Graph.Func → List String →
    Except EmitError (List Func × List String)
  | [], literals => return ([], literals)
  | f :: rest, literals => do
    let (func, literals) ← emitFunc d f literals
    let (funcs, literals) ← emitFuncs d rest literals
    return (func :: funcs, literals)

/-- The entry of a dispatch table. -/
def dispatchEntry (d : Declared) (e : DispatchEntry) : Operand :=
  match e.impl.bind fun m => d.find? (some (.func m.ref)) with
  | some f => .cast f.address .bytes
  | none => .null .i8

/-- The constants of a class. -/
def classGlobals (d : Declared) (l : ClassLayout) : List Global :=
  [⟨descriptorSymbol l.name, .chars l.descriptor⟩,
   ⟨dispatchSymbol l.name, .pointers (l.dispatch.map (dispatchEntry d))⟩]

/-- The module of a program, which comes from the file `source`. -/
def emit (p : Graph.Program) (source : String) : Except EmitError Module := do
  let d ← Declared.ofProgram p
  let (funcs, literals) ← emitFuncs d p.funcs []
  let texts := literals.mapIdx fun i s => (⟨literalSymbol i, .chars s⟩ : Global)
  return {
    source
    layout := targetLayout
    triple := targetTriple
    globals := p.layouts.classes.flatMap (classGlobals d) ++ texts
    funcs := supportFuncs ++ [compareTexts] ++ d.hosts ++ funcs }

end ClassLang.Llvm

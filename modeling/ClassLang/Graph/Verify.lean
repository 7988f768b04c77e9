import ClassLang.Graph.Dominance

/-!
The rules that a well-formed graph obeys: the ends and edges of its blocks, the
operands of its instructions, and that every operand is computed before it is
used. The last rule is only looked at if all others hold.
-/

namespace ClassLang.Graph

/-- What is wrong with an instruction by itself. -/
inductive InstrFault where
  | invalidOp
  | typedVoid
  | untyped
  | argCount (have_ want : Nat)
  | noText
  | loadTarget
  | storeTarget
  | allocLayout
  | dispatchLayout
  | noCallee
  | entryTable
  | entrySignature
  | indirectShape
  deriving DecidableEq, Repr

namespace InstrFault

/-- The wording of a fault. -/
def message : InstrFault → String
  | .invalidOp => "invalid op"
  | .typedVoid => "void op has a type"
  | .untyped => "value has nil Type"
  | .argCount n want => s!"has {n} args, want {want}"
  | .noText => "string constant without Aux string"
  | .loadTarget => "load from non-alloca"
  | .storeTarget => "store to non-alloca"
  | .allocLayout => "alloc without layout"
  | .dispatchLayout => "set-dispatch without layout"
  | .noCallee => "direct call without callee"
  | .entryTable => "dispatch entry of non-table"
  | .entrySignature => "dispatch entry without signature"
  | .indirectShape => "indirect call needs an entry and a receiver"

end InstrFault

/-- A rule that a graph breaks. Blocks and instructions are given by number. -/
inductive Violation where
  | noEntry
  | entryNotFirst
  | entryPreds (b n : Nat)
  | strangeBlock (b : Nat)
  | plainSuccs (b n : Nat)
  | branchControl (b : Nat)
  | branchType (b v : Nat)
  | branchSuccs (b n : Nat)
  | returnSuccs (b n : Nat)
  | returnMissing (b : Nat)
  | returnExtra (b v : Nat)
  | invalidKind (b : Nat)
  | succOutside (b s : Nat)
  | succOneSided (b s : Nat)
  | predOutside (b p : Nat)
  | predOneSided (b p : Nat)
  | strangeInstr (b v other : Nat)
  | argMissing (b v i : Nat)
  | argOutside (b v i arg : Nat)
  | phiCount (b v n m : Nat)
  | phiPlace (b v : Nat)
  | instr (b v : Nat) (op : Op) (fault : InstrFault)
  | phiDominance (b v i arg p : Nat)
  | usedBefore (b v i arg : Nat)
  | argDominance (b v i arg other : Nat)
  | controlDominance (b i c other : Nat)
  deriving DecidableEq, Repr

namespace Violation

/-- The wording of a violation, without the name of the function. -/
def wording (f : Func) : Violation → String
  | .noEntry => "no entry block"
  | .entryNotFirst => "Blocks[0] is not the entry block"
  | .entryPreds b n => s!"entry block {f.blockLabel b} has {n} predecessors, want 0"
  | .strangeBlock b => s!"{f.blockLabel b}: block Func pointer mismatch"
  | .plainSuccs b n => s!"{f.blockLabel b}: plain block has {n} succs, want 1"
  | .branchControl b => s!"{f.blockLabel b}: if block needs one control"
  | .branchType b v => s!"{f.blockLabel b}: if control {f.label v} is not bool"
  | .branchSuccs b n => s!"{f.blockLabel b}: if block has {n} succs, want 2"
  | .returnSuccs b n => s!"{f.blockLabel b}: return block has {n} succs, want 0"
  | .returnMissing b => s!"{f.blockLabel b}: missing return value"
  | .returnExtra b v => s!"{f.blockLabel b}: return value {f.label v} in void function"
  | .invalidKind b => s!"{f.blockLabel b}: block has invalid kind"
  | .succOutside b s => s!"{f.blockLabel b}: successor {f.blockLabel s} not in function"
  | .succOneSided b s =>
    s!"{f.blockLabel b}: successor {f.blockLabel s} does not have {f.blockLabel b} as predecessor"
  | .predOutside b p => s!"{f.blockLabel b}: predecessor {f.blockLabel p} not in function"
  | .predOneSided b p =>
    s!"{f.blockLabel b}: predecessor {f.blockLabel p} does not have {f.blockLabel b} as successor"
  | .strangeInstr b v other =>
    s!"{f.blockLabel b}, {f.label v}: value Block pointer is {f.blockLabel other}"
  | .argMissing b v i => s!"{f.blockLabel b}, {f.label v}: arg[{i}] is nil"
  | .argOutside b v i arg =>
    s!"{f.blockLabel b}, {f.label v}: arg[{i}] {f.label arg} not found in function"
  | .phiCount b v n m =>
    s!"{f.blockLabel b}, {f.label v}: phi has {n} args but block has {m} preds"
  | .phiPlace b v => s!"{f.blockLabel b}, {f.label v}: phi after non-phi value"
  | .instr b v op fault =>
    s!"{f.blockLabel b}, {f.label v} ({op.text}): {fault.message}"
  | .phiDominance b v i arg p =>
    s!"{f.blockLabel b}, {f.label v}: phi arg[{i}] {f.label arg} does not dominate "
      ++ s!"pred {f.blockLabel p}"
  | .usedBefore b v i arg =>
    s!"{f.blockLabel b}, {f.label v}: arg[{i}] {f.label arg} used before definition"
  | .argDominance b v i arg other =>
    s!"{f.blockLabel b}, {f.label v}: arg[{i}] {f.label arg} defined in "
      ++ s!"{f.blockLabel other} which does not dominate {f.blockLabel b}"
  | .controlDominance b i c other =>
    s!"{f.blockLabel b}: control[{i}] {f.label c} defined in "
      ++ s!"{f.blockLabel other} which does not dominate {f.blockLabel b}"

/-- The wording of a violation. -/
def message (f : Func) (x : Violation) : String := s!"func {f.name}: {x.wording f}"

end Violation

/-- The examination of a graph looked at an operand that is missing. -/
structure MissingOperand where
  instr : Nat
  deriving DecidableEq, Repr

/-! Instructions by themselves -/

namespace Instr

/-- The fault of an instruction that has the wrong number of operands. -/
def countFault? (v : Instr) (n : Nat) : Option InstrFault :=
  if v.args.length = n then none else some (.argCount v.args.length n)

/-- The operation of the first operand. -/
def firstOp (f : Func) (v : Instr) : Except MissingOperand Op :=
  match v.args with
  | some a :: _ => .ok (((f.instr? a).map (·.op)).getD .invalid)
  | _ => .error ⟨v.id⟩

/-- The fault of an instruction whose first operand must be a given operation. -/
def targetFault? (f : Func) (v : Instr) (n : Nat) (op : Op) (fault : InstrFault) :
    Except MissingOperand (Option InstrFault) :=
  match v.countFault? n with
  | some x => .ok (some x)
  | none => do
    let found ← v.firstOp f
    return if found = op then none else some fault

/-- What is wrong with the operands of an instruction. -/
def operandFault? (f : Func) (v : Instr) : Except MissingOperand (Option InstrFault) :=
  match v.op with
  | .const64 | .constFloat | .constBool | .arg | .alloca => .ok (v.countFault? 0)
  | .constString =>
    match v.aux with
    | some (.text _) => .ok (v.countFault? 0)
    | _ => .ok (some .noText)
  | .neg64 | .negF64 | .not | .loadField | .dispatchTable => .ok (v.countFault? 1)
  | .load => v.targetFault? f 1 .alloca .loadTarget
  | .store => v.targetFault? f 2 .alloca .storeTarget
  | .alloc => .ok (if v.layout?.isSome then v.countFault? 0 else some .allocLayout)
  | .storeField => .ok (v.countFault? 2)
  | .setDispatch => .ok (if v.layout?.isSome then v.countFault? 1 else some .dispatchLayout)
  | .callDirect => .ok (if v.callee?.isSome then none else some .noCallee)
  | .dispatchEntry => do
    match ← v.targetFault? f 1 .dispatchTable .entryTable with
    | some x => return some x
    | none =>
      match v.type with
      | some (.func ..) => return none
      | _ => return some .entrySignature
  | .callIndirect =>
    if v.args.length < 2 then .ok (some .indirectShape)
    else do
      let found ← v.firstOp f
      return if found = .dispatchEntry then none else some .indirectShape
  | .phi => .ok none
  | _ => .ok (v.countFault? 2)

/-- What is wrong with an instruction by itself. -/
def fault? (f : Func) (v : Instr) : Except MissingOperand (Option InstrFault) :=
  if v.op = .invalid || v.op = .unlisted then .ok (some .invalidOp)
  else if v.op.isVoid && v.type.isSome then .ok (some .typedVoid)
  else if !v.op.isVoid && !v.op.isCall && !v.op.isUntyped && v.type.isNone then
    .ok (some .untyped)
  else v.operandFault? f

end Instr

namespace Func

/-- The last place of an instruction in the blocks of a function. -/
def position? (f : Func) (i : Nat) : Option Nat :=
  f.order.reverse.findSome? fun b =>
    let vs := f.values b
    (vs.reverse.idxOf? i).map fun k => vs.length - 1 - k

/-! Blocks and their edges -/

/-- Whether a function has a result. -/
def hasResult (f : Func) : Bool :=
  match f.sig with
  | some sig => !sig.result.isVoid
  | none => false

/-- What is wrong with the end of block `i`. -/
def endViolations (f : Func) (i : Nat) (b : Block) : List Violation :=
  let n := b.succs.length
  match b.kind with
  | .plain => if n = 1 then [] else [.plainSuccs i n]
  | .branch =>
    (match b.controls with
      | [some c] =>
        match (f.instr? c).bind (·.type) with
        | some .bool => []
        | _ => [.branchType i c]
      | _ => [.branchControl i])
      ++ (if n = 2 then [] else [.branchSuccs i n])
  | .ret =>
    (if n = 0 then [] else [.returnSuccs i n])
      ++ (match f.hasResult, b.controls.head?.bind id with
        | true, none => [.returnMissing i]
        | false, some c => [.returnExtra i c]
        | _, _ => [])
  | _ => [.invalidKind i]

/-- What is wrong with the edges of block `i`. -/
def edgeViolations (f : Func) (i : Nat) (b : Block) : List Violation :=
  (b.succs.filterMap fun s =>
    if !f.order.contains s then some (.succOutside i s)
    else if !(f.preds s).contains i then some (.succOneSided i s)
    else none)
  ++ (b.preds.filterMap fun p =>
    if !f.order.contains p then some (.predOutside i p)
    else if !(f.succs p).contains i then some (.predOneSided i p)
    else none)

/-- What is wrong with the operands of instruction `v` as a list. -/
def argViolations (f : Func) (i v : Nat) (args : List (Option Nat)) : List Violation :=
  (args.mapIdx fun j arg =>
    match arg with
    | none => some (Violation.argMissing i v j)
    | some a => if (f.position? a).isSome then none else some (.argOutside i v j a)).filterMap id

/-- What is wrong with the place of a `phi`. `before` is the instruction in front
of it. -/
def phiViolations (f : Func) (i v : Nat) (x : Instr) (before : Option Nat) : List Violation :=
  let n := x.args.length
  let m := (f.preds i).length
  (if n = m then [] else [.phiCount i v n m])
    ++ (match before.bind f.instr? with
      | some y => if y.op = .phi then [] else [.phiPlace i v]
      | none => [])

/-- What is wrong with instruction `v` of block `i`. -/
def instrViolations (f : Func) (i v : Nat) (before : Option Nat) :
    Except MissingOperand (List Violation) :=
  match f.instr? v with
  | none => .ok []
  | some x => do
    let fault ← x.fault? f
    return (if x.block = i then [] else [.strangeInstr i v x.block])
      ++ f.argViolations i v x.args
      ++ (if x.op = .phi then f.phiViolations i v x before else [])
      ++ fault.toList.map (.instr i v x.op)

/-- What is wrong with the instructions of block `i`. -/
def valueViolations (f : Func) (i : Nat) :
    Option Nat → List Nat → Except MissingOperand (List Violation)
  | _, [] => .ok []
  | before, v :: rest => do
    let xs ← f.instrViolations i v before
    let ys ← f.valueViolations i (some v) rest
    return xs ++ ys

/-- What is wrong with block `i` apart from dominance. -/
def blockViolations (f : Func) (i : Nat) : Except MissingOperand (List Violation) :=
  match f.block? i with
  | none => .ok []
  | some b => do
    let values ← f.valueViolations i none b.values
    return (if b.owned then [] else [.strangeBlock i])
      ++ f.endViolations i b ++ f.edgeViolations i b ++ values

/-- What is wrong with several blocks. -/
def shapeViolations (f : Func) : List Nat → Except MissingOperand (List Violation)
  | [] => .ok []
  | i :: rest => do
    let xs ← f.blockViolations i
    let ys ← f.shapeViolations rest
    return xs ++ ys

/-! Dominance -/

/-- The block of an instruction. -/
def blockOf (f : Func) (v : Nat) : Nat := ((f.instr? v).map (·.block)).getD 0

/-- What is wrong with operand number `j` of instruction `v` in block `i`. -/
def useViolation? (f : Func) (idoms : Idoms) (i v : Nat) (op : Op) (j arg : Nat) :
    Option Violation :=
  let home := f.blockOf arg
  if op = .phi then
    match (f.preds i)[j]? with
    | some p => if idoms.dominates home p then none else some (.phiDominance i v j arg p)
    | none => none
  else if home = i then
    if (f.position? v).getD 0 ≤ (f.position? arg).getD 0 then some (.usedBefore i v j arg)
    else none
  else if idoms.dominates home i then none
  else some (.argDominance i v j arg home)

/-- What is used in block `i` before it is computed. -/
def useViolations (f : Func) (idoms : Idoms) (i : Nat) : List Violation :=
  let instrs := (f.values i).flatMap fun v =>
    match f.instr? v with
    | none => []
    | some x =>
      (x.args.mapIdx fun j arg => arg.bind (f.useViolation? idoms i v x.op j)).filterMap id
  let controls := ((f.block? i).map (·.controls)).getD []
  let ends := controls.mapIdx fun j c =>
    match c with
    | none => none
    | some c =>
      let home := f.blockOf c
      if home = i || idoms.dominates home i then none
      else some (Violation.controlDominance i j c home)
  instrs ++ ends.filterMap id

/-! The whole graph -/

/-- What is wrong with the entry of a graph. -/
def entryViolations (f : Func) (e : Nat) : List Violation :=
  let n := (f.preds e).length
  (if f.order.head? = some e then [] else [.entryNotFirst])
    ++ (if n = 0 then [] else [.entryPreds e n])

/-- Every rule that a graph breaks. -/
def violations (f : Func) : Except MissingOperand (List Violation) :=
  match f.entry, f.order with
  | none, _ | _, [] => .ok [.noEntry]
  | some e, _ => do
    let shape ← f.shapeViolations f.order
    let found := f.entryViolations e ++ shape
    if !found.isEmpty then return found
    let idoms := f.idoms
    let reachable := f.reversePostOrder
    return (f.order.filter reachable.contains).flatMap (f.useViolations idoms)

end Func

namespace Program

/-- The messages of all rules that the functions of a program break. -/
def violations (p : Program) : Except MissingOperand (List String) := do
  let lists ← p.funcs.mapM fun f => do
    return (← f.violations).map (·.message f)
  return lists.flatten

end Program

end ClassLang.Graph

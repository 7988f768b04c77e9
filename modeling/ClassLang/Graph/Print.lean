import ClassLang.Graph
import ClassLang.Number.Shortest

/-!
Graphs as text. A graph with a missing operand cannot be shown.
-/

namespace ClassLang.Graph

namespace Instr

/-- The operands as text, if none is missing. -/
def operandTexts? (f : Func) (v : Instr) : Option (List String) :=
  v.args.mapM fun arg => arg.map fun i => " " ++ f.label i

/-- The text an instruction carries. A text constant that carries none shows so. -/
def auxText (v : Instr) : String :=
  match v.op, v.aux with
  | .constString, some a => " \x7b" ++ Text.quote a.shown ++ "\x7d"
  | .constString, none => " \x7b%!q(<nil>)\x7d"
  | _, some a => " \x7b" ++ a.shown ++ "\x7d"
  | _, none => ""

/-- An instruction as text, if no operand is missing. -/
def text? (f : Func) (v : Instr) : Option String := do
  let operands ← v.operandTexts? f
  let head := if v.op.isVoid then v.op.text else s!"{v.label} = {v.op.text}"
  let type :=
    match v.type with
    | some .void | none => ""
    | some t => s!" <{t.text}>"
  let number :=
    if v.op.showsNumber then s!" [{v.number.toInt}]"
    else if v.op = .constFloat then s!" [{v.float.text}]"
    else ""
  return head ++ type ++ number ++ v.auxText ++ String.join operands

end Instr

namespace Block

/-- The end of a block as text, if what it shows is not missing. -/
def endText? (f : Func) (b : Block) : Option String :=
  match b.kind with
  | .plain =>
    match b.succs with
    | s :: _ => some s!"Plain -> {f.blockLabel s}"
    | [] => some "Plain"
  | .branch =>
    match b.controls, b.succs with
    | c :: _, s :: t :: _ =>
      c.map fun c => s!"If {f.label c} -> {f.blockLabel s} {f.blockLabel t}"
    | _, _ => some "If (malformed)"
  | .ret =>
    match b.controls with
    | some c :: _ => some s!"Return {f.label c}"
    | _ => some "Return"
  | _ => some "???"

end Block

namespace Func

/-- The block with number `i` as text. -/
def blockText? (f : Func) (i : Nat) : Option String := do
  let b ← f.block? i
  let entry := if f.entry = some i then " (entry)" else ""
  let preds :=
    if b.preds.isEmpty then ""
    else " <- " ++ " ".intercalate (b.preds.map f.blockLabel)
  let lines ← (b.values.filterMap f.instr?).mapM (·.text? f)
  let last ← b.endText? f
  return s!"  {b.label}:{entry}{preds}\n"
    ++ String.join ((lines ++ [last]).map fun line => s!"    {line}\n")

end Func

/-- Parameters and result as text. -/
def parameterText (sig : Signature) : String :=
  let params := sig.params.map fun p => p.name ++ " " ++ p.ty.text
  "(" ++ ", ".intercalate params ++ ")"
    ++ (if sig.result.isVoid then "" else " " ++ sig.result.text)

namespace Func

/-- A function as text. -/
def text? (f : Func) : Option String := do
  let params := (f.sig.map parameterText).getD ""
  let blocks ← f.order.mapM f.blockText?
  return s!"func {f.name}{params}:\n" ++ String.join blocks

end Func

namespace Program

/-- A program as text: its layouts, its host functions, and its functions. -/
def text? (p : Program) : Option String := do
  let hosts := p.hosts.map fun h => s!"extern {h.name}{parameterText h.sig}\n"
  let funcs ← p.funcs.mapM fun f => do return "\n" ++ (← f.text?)
  return p.layouts.text ++ String.join hosts ++ String.join funcs

end Program

end ClassLang.Graph

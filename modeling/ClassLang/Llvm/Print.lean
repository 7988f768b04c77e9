import ClassLang.Llvm.Module
import ClassLang.Number.Shortest
import ClassLang.Text.Utf8

/-!
Modules as text. Results without a name are numbered in the order in which a
function lists them, behind the parameters without a name.
-/

namespace ClassLang.Llvm

/-! Names and constants -/

/-- The hexadecimal digits of a number in capital letters. -/
def hexDigits (n : Nat) : List Char := (Nat.toDigits 16 n).map Char.toUpper

/-- One byte of a text in quotes. -/
def byteText (b : UInt8) : String :=
  let n := b.toNat
  if 0x20 ≤ n && n ≤ 0x7E && n ≠ 0x22 && n ≠ 0x5C then String.singleton (Char.ofNat n)
  else
    let digits := hexDigits n
    "\\" ++ String.ofList (List.replicate (2 - digits.length) '0' ++ digits)

/-- The bytes of a text, each of which is shown or escaped. -/
def bytesText (s : String) : String := String.join ((Utf8.encode s).map byteText)

/-- A text in quotes. -/
def quote (s : String) : String := "\"" ++ bytesText s ++ "\""

/-- Whether a character may stand in a name without quotes. -/
def isNameChar (c : Char) : Bool := c.isAlphanum || c = '$' || c = '.' || c = '_' || c = '-'

/-- Whether a text would be read as a number, which has at most 64 bits. -/
def isNumber (s : String) : Bool :=
  s.toList.all Char.isDigit &&
    ((Constant.ofDigits? 10 s.toList).getD 0) < 18446744073709551616

/-- A name, in quotes where it could be read as something else. -/
def nameText (s : String) : String :=
  if s.toList.all isNameChar && !isNumber s then s else quote s

/-- The name of a constant or function. At most one function of a module has no
name, and it is number 0. -/
def globalText (name : String) : String :=
  "@" ++ (if name.isEmpty then "0" else nameText name)

/-- How many different digits a number has. -/
def variety (digits : List Char) : Nat := digits.eraseDups.length

/-- The share of different digits among those that could differ, as a
floating-point number. -/
def density (base : Nat) (digits : List Char) : Double :=
  Double.round false (variety digits) (min digits.length base)

/-- The greatest number of different digits that a hexadecimal number of a given
length has if it is to be shown as one. -/
def maxVariety (length : Nat) : Nat :=
  if length ≤ 6 then 2 else if length ≤ 10 then 3 else 4

/-- Whether an integer is easier to read in hexadecimal: from 4096 on, if it has
few different digits there and the share of them is lower by a fifth. -/
def prefersHex (n : Nat) : Bool :=
  let digits := hexDigits n
  let bound := (density 16 digits).add (Double.round false 1 5)
  4096 ≤ n && variety digits ≤ maxVariety digits.length
    && bound.lessEqual (density 10 (Nat.toDigits 10 n))

/-- An integer, in hexadecimal where that is easier to read. -/
def intText : Int → String
  | .ofNat n => if prefersHex n then "u0x" ++ String.ofList (hexDigits n) else toString n
  | n => toString n

/-- A decimal with a point. One without gets `.0` behind its digits. -/
def withPoint (decimal : String) : String :=
  let whole := decimal.toList.takeWhile (· ≠ 'e')
  let exponent := decimal.toList.dropWhile (· ≠ 'e')
  if whole.contains '.' then decimal
  else String.ofList whole ++ ".0" ++ String.ofList exponent

/-- Whether the decimal that listings show is exactly the number. -/
def isExactDecimal (x : Double) : Bool :=
  match x.view with
  | .nan | .infinite _ => false
  | .finite _ m e => m = 0 || (Double.shortest m e).toRat = Double.toRat false m e

/-- A floating-point number: in decimal if that is exact, else its bits in
hexadecimal. -/
def doubleText (x : Double) : String :=
  if isExactDecimal x then withPoint x.text
  else "0x" ++ String.ofList (hexDigits x.bits.toNat)

/-! Instructions -/

/-- The names of the values of a function: of its parameters, of its results by
the numbers of their instructions, and of its blocks. -/
structure Names where
  params : List String
  results : List (Nat × Nat)
  labels : List String

namespace Names

/-- The name of a local value. -/
def localText (name : String) : String := "%" ++ nameText name

/-- The name of a numbered value. -/
def numbered (n : Nat) : String := "%" ++ toString n

/-- The names of parameters, of which those without a name are numbered. -/
def ofParams (next : Nat) : List Param → List String
  | [] => []
  | p :: rest =>
    if p.name.isEmpty then numbered next :: ofParams (next + 1) rest
    else localText p.name :: ofParams next rest

/-- The numbers of the results of a function. A result without a value has none. -/
def ofLines (next : Nat) (lines : List Line) : List (Nat × Nat) :=
  (lines.filter (!·.instr.type.same .void)).mapIdx fun i l => (l.number, next + i)

/-- The names in a function. -/
def ofFunc (f : Func) : Names :=
  let unnamed := (f.params.filter (·.name.isEmpty)).length
  { params := ofParams 0 f.params
    results := ofLines unnamed (f.blocks.flatMap (·.lines))
    labels := f.blocks.map (·.label) }

/-- The name of the result of an instruction. One without a number is shown as
number 0. -/
def result (ns : Names) (line : Nat) : String := numbered ((ns.results.lookup line).getD 0)

/-- The name of a block. -/
def label (ns : Names) (i : Nat) : String := localText (ns.labels.getD i "")

end Names

namespace Operand

/-- An operand without its type. -/
def text (ns : Names) : Operand → String
  | .int _ n => intText n
  | .bool b => if b then "true" else "false"
  | .double x => doubleText x
  | .null _ => "null"
  | .param i _ => ns.params.getD i ""
  | .result line _ => ns.result line
  | .global name _ => globalText name
  | .firstByte name length =>
    let array := (Ty.array length .i8).text
    s!"getelementptr ({array}, {array}* {globalText name}, i64 0, i64 0)"
  | .cast x type => s!"bitcast ({x.type.text} {x.text ns} to {type.text})"

/-- An operand with its type. -/
def typedText (ns : Names) (x : Operand) : String := x.type.text ++ " " ++ x.text ns

end Operand

namespace BinaryOp

/-- The word for an operation. -/
def text : BinaryOp → String
  | .add => "add"
  | .sub => "sub"
  | .mul => "mul"
  | .sdiv => "sdiv"
  | .srem => "srem"
  | .xor => "xor"
  | .fadd => "fadd"
  | .fsub => "fsub"
  | .fmul => "fmul"
  | .fdiv => "fdiv"

end BinaryOp

namespace IntPred

/-- The word for a comparison. -/
def text : IntPred → String
  | .eq => "eq"
  | .ne => "ne"
  | .slt => "slt"
  | .sle => "sle"
  | .sgt => "sgt"
  | .sge => "sge"

end IntPred

namespace FloatPred

/-- The word for a comparison. -/
def text : FloatPred → String
  | .oeq => "oeq"
  | .one => "one"
  | .olt => "olt"
  | .ole => "ole"
  | .ogt => "ogt"
  | .oge => "oge"

end FloatPred

namespace Instr

/-- An instruction without the name of its result. -/
def text (ns : Names) : Instr → String
  | .alloca type => s!"alloca {type.text}"
  | .load type address => s!"load {type.text}, {address.typedText ns}"
  | .store value address => s!"store {value.typedText ns}, {address.typedText ns}"
  | .binary op x y => s!"{op.text} {x.typedText ns}, {y.text ns}"
  | .fneg x => s!"fneg {x.typedText ns}"
  | .icmp pred x y => s!"icmp {pred.text} {x.typedText ns}, {y.text ns}"
  | .fcmp pred x y => s!"fcmp {pred.text} {x.typedText ns}, {y.text ns}"
  | .select cond x y =>
    s!"select {cond.typedText ns}, {x.typedText ns}, {y.typedText ns}"
  | .phi type incoming =>
    let pairs := incoming.map fun (x, block) => s!"[ {x.text ns}, {ns.label block} ]"
    s!"phi {type.text} " ++ ", ".intercalate pairs
  | .element type base index =>
    s!"getelementptr {type.text}, {base.typedText ns}, {index.typedText ns}"
  | .bitcast x type => s!"bitcast {x.typedText ns} to {type.text}"
  | .call callee args =>
    let result := (callResult callee.type).text
    let shown := ", ".intercalate (args.map (·.typedText ns))
    s!"call {result} {callee.text ns}({shown})"

end Instr

namespace Terminator

/-- The end of a block. -/
def text (ns : Names) : Terminator → String
  | .jump target => s!"br label {ns.label target}"
  | .branch cond yes no =>
    s!"br {cond.typedText ns}, label {ns.label yes}, label {ns.label no}"
  | .ret (some x) => s!"ret {x.typedText ns}"
  | .ret none => "ret void"
  | .unreachable => "unreachable"

end Terminator

/-! Functions and modules -/

namespace Line

/-- An instruction on a line of its own. -/
def text (ns : Names) (l : Line) : String :=
  let named := if l.instr.isNamed then ns.result l.number ++ " = " else ""
  "\t" ++ named ++ l.instr.text ns ++ "\n"

end Line

namespace Block

/-- A block with its label. -/
def text (ns : Names) (b : Block) : String :=
  let close := (b.terminator.map fun t => "\t" ++ t.text ns ++ "\n").getD ""
  nameText b.label ++ ":\n" ++ String.join (b.lines.map (·.text ns)) ++ close

end Block

namespace Func

/-- The result, name and parameters of a function. -/
def head (f : Func) (params : List String) : String :=
  let shown := (f.params.zip params).map fun (p, name) => p.type.text ++ " " ++ name
  f.result.text ++ " " ++ globalText f.name ++ "(" ++ ", ".intercalate shown ++ ")"
    ++ (if f.noReturn then " noreturn" else "")

/-- A function as text: a declaration if it has no body. -/
def text (f : Func) : String :=
  let ns := Names.ofFunc f
  if f.blocks.isEmpty then "declare " ++ f.head ns.params ++ "\n"
  else
    "define " ++ f.head ns.params ++ " \x7b\n" ++ "\n".intercalate (f.blocks.map (·.text ns))
      ++ "\x7d\n"

end Func

namespace Contents

/-- What a constant holds. -/
def text : Contents → String
  | .chars s => "c\"" ++ bytesText s ++ "\\00\""
  | .pointers [] => "zeroinitializer"
  | .pointers entries =>
    "[" ++ ", ".intercalate (entries.map (·.typedText ⟨[], [], []⟩)) ++ "]"

end Contents

namespace Global

/-- A constant on a line of its own. -/
def text (g : Global) : String :=
  s!"{globalText g.name} = constant {g.contents.type.text} {g.contents.text}\n"

end Global

namespace Module

/-- A module as text. -/
def text (m : Module) : String :=
  let source := if m.source.isEmpty then "" else s!"source_filename = {quote m.source}\n"
  let target := s!"target datalayout = {quote m.layout}\ntarget triple = {quote m.triple}\n"
  let globals := String.join (m.globals.map (·.text))
  let parts := (source ++ target) :: (if m.globals.isEmpty then [] else [globals])
    ++ m.funcs.map (·.text)
  "\n".intercalate parts

end Module

end ClassLang.Llvm

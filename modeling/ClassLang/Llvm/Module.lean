import ClassLang.Number.Double
import ClassLang.Type

/-!
Modules of LLVM. A module has constants and functions; a function with a body is
a list of blocks, and a block is a list of instructions with one terminator.

Instructions are told apart by a number that is unique in their function, and an
operand refers to the result of an instruction by that number. Blocks are
referred to by their place in the function.
-/

namespace ClassLang.Llvm

/-! Types. Objects, texts and entries of dispatch tables are all pointers to bytes, so types
that only differ in their classes become the same. -/

/-- A type of LLVM. -/
inductive Ty where
  | void
  | int (width : Nat)
  | double
  | ptr (elem : Ty)
  | array (length : Nat) (elem : Ty)
  | func (result : Ty) (params : List Ty)
  deriving Repr, Inhabited

namespace Ty

/-- Truth values. -/
abbrev i1 : Ty := .int 1

/-- Bytes. -/
abbrev i8 : Ty := .int 8

/-- Words of 32 bits. -/
abbrev i32 : Ty := .int 32

/-- Words of 64 bits. -/
abbrev i64 : Ty := .int 64

/-- Pointers to bytes. -/
abbrev bytes : Ty := .ptr .i8

mutual

/-- A type as modules show it. -/
def text : Ty → String
  | .void => "void"
  | .int width => "i" ++ toString width
  | .double => "double"
  | .ptr elem => elem.text ++ "*"
  | .array length elem => "[" ++ toString length ++ " x " ++ elem.text ++ "]"
  | .func result params => result.text ++ " (" ++ ", ".intercalate (texts params) ++ ")"

/-- The texts of a list of types. -/
def texts : List Ty → List String
  | [] => []
  | t :: rest => t.text :: texts rest

end

mutual

/-- Whether two types are the same. -/
def same : Ty → Ty → Bool
  | .void, .void => true
  | .int a, .int b => a = b
  | .double, .double => true
  | .ptr a, .ptr b => a.same b
  | .array n a, .array m b => n = m && a.same b
  | .func a as, .func b bs => a.same b && sameAll as bs
  | _, _ => false

/-- Whether two lists hold the same types in the same order. -/
def sameAll : List Ty → List Ty → Bool
  | [], [] => true
  | a :: as, b :: bs => a.same b && sameAll as bs
  | _, _ => false

end

/-- The family of a type as messages name it. -/
def family : Ty → String
  | .void => "*types.VoidType"
  | .int _ => "*types.IntType"
  | .double => "*types.FloatType"
  | .ptr _ => "*types.PointerType"
  | .array .. => "*types.ArrayType"
  | .func .. => "*types.FuncType"

/-- The type of values of the type `t` of the language, if there are any. -/
def ofTy? : ClassLang.Ty → Option Ty
  | .invalid | .func .. => none
  | .void | .missing => some .void
  | .int => some .i64
  | .float => some .double
  | .bool => some .i1
  | .str | .cls _ | .inst .. | .param _ => some .bytes

end Ty

/-! Modules -/

/-- What an instruction works on. -/
inductive Operand where
  | int (width : Nat) (n : Int)
  | bool (b : Bool)
  | double (x : Double)
  /-- The pointer to nothing. -/
  | null (elem : Ty)
  | param (index : Nat) (type : Ty)
  /-- The result of the instruction with a given number. -/
  | result (line : Nat) (type : Ty)
  /-- The address of a constant or function of the module. -/
  | global (name : String) (type : Ty)
  /-- The address of the first byte of a text in the module. -/
  | firstByte (name : String) (length : Nat)
  /-- A constant pointer taken as one of another type. -/
  | cast (x : Operand) (type : Ty)
  deriving Repr, Inhabited

namespace Operand

/-- The type of an operand. -/
def type : Operand → Ty
  | .int width _ => .int width
  | .bool _ => .i1
  | .double _ => .double
  | .null elem => .ptr elem
  | .param _ type | .result _ type => type
  | .global _ type => .ptr type
  | .firstByte .. => .bytes
  | .cast _ type => type

/-- A word of 64 bits. -/
def word (n : Int) : Operand := .int 64 n

end Operand

/-- An operation on two numbers. -/
inductive BinaryOp where
  | add | sub | mul | sdiv | srem | xor | fadd | fsub | fmul | fdiv
  deriving DecidableEq, Repr, Inhabited

/-- How two integers are compared. -/
inductive IntPred where
  | eq | ne | slt | sle | sgt | sge
  deriving DecidableEq, Repr, Inhabited

/-- How two floating-point numbers are compared. No comparison holds of a number
that is not one. -/
inductive FloatPred where
  | oeq | one | olt | ole | ogt | oge
  deriving DecidableEq, Repr, Inhabited

/-- An instruction. -/
inductive Instr where
  | alloca (type : Ty)
  | load (type : Ty) (address : Operand)
  | store (value address : Operand)
  | binary (op : BinaryOp) (x y : Operand)
  | fneg (x : Operand)
  | icmp (pred : IntPred) (x y : Operand)
  | fcmp (pred : FloatPred) (x y : Operand)
  | select (cond x y : Operand)
  /-- The operand that belongs to the block that control comes from. -/
  | phi (type : Ty) (incoming : List (Operand × Nat))
  /-- The address `index` elements behind `base`. -/
  | element (type : Ty) (base index : Operand)
  | bitcast (x : Operand) (type : Ty)
  | call (callee : Operand) (args : List Operand)
  deriving Repr, Inhabited

namespace Instr

/-- The type of the result of a call. -/
def callResult : Ty → Ty
  | .ptr (.func result _) => result
  | _ => .void

/-- The type of the result of an instruction. -/
def type : Instr → Ty
  | .alloca type => .ptr type
  | .load type _ => type
  | .store .. => .void
  | .binary _ x _ => x.type
  | .fneg x => x.type
  | .icmp .. | .fcmp .. => .i1
  | .select _ x _ => x.type
  | .phi type _ => type
  | .element type _ _ => .ptr type
  | .bitcast _ type => type
  | .call callee _ => callResult callee.type

/-- Whether the result of an instruction has a name. -/
def isNamed : Instr → Bool
  | .store .. => false
  | .call callee _ => !(callResult callee.type).same .void
  | _ => true

end Instr

/-- How a block ends. -/
inductive Terminator where
  | jump (target : Nat)
  | branch (cond : Operand) (yes no : Nat)
  | ret (value : Option Operand)
  | unreachable
  deriving Repr, Inhabited

/-- An instruction with its number. -/
structure Line where
  number : Nat
  instr : Instr
  deriving Repr, Inhabited

/-- A block. While a function is being written a block may lack its end. -/
structure Block where
  label : String
  lines : List Line := []
  terminator : Option Terminator := none
  deriving Repr, Inhabited

/-- A parameter. One without a name gets a number. -/
structure Param where
  name : String
  type : Ty
  deriving Repr, Inhabited

/-- A function; one without blocks is defined elsewhere. -/
structure Func where
  name : String
  params : List Param
  result : Ty
  noReturn : Bool := false
  blocks : List Block := []
  deriving Repr, Inhabited

namespace Func

/-- The type of a function. -/
def type (f : Func) : Ty := .func f.result (f.params.map (·.type))

/-- The address of a function. -/
def address (f : Func) : Operand := .global f.name f.type

end Func

/-- The contents of a constant: the bytes of a text, which a zero follows, or
pointers to bytes. -/
inductive Contents where
  | chars (s : String)
  | pointers (entries : List Operand)
  deriving Repr, Inhabited

namespace Contents

/-- The type of a constant. -/
def type : Contents → Ty
  | .chars s => .array (s.utf8ByteSize + 1) .i8
  | .pointers entries => .array entries.length .bytes

end Contents

/-- A constant of a module. -/
structure Global where
  name : String
  contents : Contents
  deriving Repr, Inhabited

/-- A module, with the name of the file it comes from. -/
structure Module where
  source : String
  layout : String
  triple : String
  globals : List Global
  funcs : List Func
  deriving Repr, Inhabited

/-! What a module agrees on with the library it is linked with: the machine it is for, the
functions that the library provides, and the names of symbols. -/

/-- The machine that modules are for. -/
def targetTriple : String := "x86_64-unknown-linux-gnu"

/-- How values lie in the memory of that machine. -/
def targetLayout : String :=
  "e-m:e-p270:32:32-p271:32:32-p272:64:64-i64:64-f80:128-n8:16:32:64-S128"

/-- Makes an object of a given size with a given descriptor. -/
def allocate : Func :=
  { name := "rt_alloc", params := [⟨"p0", .i64⟩, ⟨"p1", .bytes⟩], result := .bytes }

/-- Ends the program with a message. -/
def abort : Func :=
  { name := "rt_panic", params := [⟨"p0", .bytes⟩], result := .void, noReturn := true }

/-- The functions that the library provides. -/
def supportFuncs : List Func := [allocate, abort]

/-- Compares two texts byte by byte; equal texts give zero. -/
def compareTexts : Func :=
  { name := "strcmp", params := [⟨"a", .bytes⟩, ⟨"b", .bytes⟩], result := .i32 }

/-- The symbol of the function where a program starts. -/
def mainSymbol : String := "kyanite_main"

/-- The symbol of the descriptor of a class. -/
def descriptorSymbol (cls : String) : String := "desc." ++ cls

/-- The symbol of the dispatch table of a class. -/
def dispatchSymbol (cls : String) : String := "dispatch." ++ cls

/-- The symbol of the text constant number `i`. -/
def literalSymbol (i : Nat) : String := ".str." ++ toString i

end ClassLang.Llvm

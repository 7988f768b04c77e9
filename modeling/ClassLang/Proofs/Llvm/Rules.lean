import ClassLang.Llvm.Emit
import ClassLang.Proofs.Graph.Routes

/-!
What LLVM asks of the functions of a module. The first group of rules is about the shape of
a function: how its blocks end, where its phis stand, and that whatever is used has been
computed on every way there. The second one is about the types of operands.
-/

namespace ClassLang.Llvm

open Graph (OnEveryRoute)

namespace Operand

/-- The number of the instruction whose result an operand is. -/
def line? : Operand → Option Nat
  | .result n _ => some n
  | .cast x _ => x.line?
  | _ => none

end Operand

namespace Instr

/-- The operands of an instruction. Those of a phi belong to the blocks that they come from. -/
def operands : Instr → List Operand
  | .alloca _ | .phi .. => []
  | .load _ x | .fneg x | .bitcast x _ => [x]
  | .store x y | .binary _ x y | .icmp _ x y | .fcmp _ x y | .element _ x y => [x, y]
  | .select x y z => [x, y, z]
  | .call f args => f :: args

/-- The operands of a phi, with the blocks that they come from. -/
def incoming : Instr → List (Operand × Nat)
  | .phi _ list => list
  | _ => []

/-- Whether an instruction is a phi. -/
def isPhi : Instr → Bool
  | .phi .. => true
  | _ => false

end Instr

namespace Terminator

/-- The blocks that control can go to. -/
def targets : Terminator → List Nat
  | .jump b => [b]
  | .branch _ yes no => [yes, no]
  | .ret _ | .unreachable => []

/-- The operands of the end of a block. -/
def operands : Terminator → List Operand
  | .branch x _ _ | .ret (some x) => [x]
  | _ => []

end Terminator

/-- The blocks of a function, which refer to each other by their places. -/
abbrev Body := List Block

namespace Body

/-- Instruction number `i` of block `k`. -/
def line? (body : Body) (k i : Nat) : Option Line := body[k]?.bind fun b => b.lines[i]?

/-- How block `k` ends. -/
def terminator? (body : Body) (k : Nat) : Option Terminator := body[k]?.bind (·.terminator)

/-- The blocks that control can go to from block `k`. -/
def succs (body : Body) (k : Nat) : List Nat := ((body.terminator? k).map (·.targets)).getD []

/-- The blocks that control comes from to block `k`, each as often as it leads there. -/
def preds (body : Body) (k : Nat) : List Nat :=
  (List.range body.length).flatMap fun j => ((body.succs j).filter (· = k)).map fun _ => j

/-- How many instructions block `k` has. -/
def count (body : Body) (k : Nat) : Nat := (body[k]?.map (·.lines.length)).getD 0

/-- The result number `n` is there before instruction `i` of block `k`: it is computed before
in the block, or in another block that every route to it passes. -/
def Available (body : Body) (n k i : Nat) : Prop :=
  ∃ k' i' l, body.line? k' i' = some l ∧ l.number = n ∧
    ((k' = k ∧ i' < i) ∨ (k' ≠ k ∧ OnEveryRoute body.succs 0 k' k))

/-- The rules for the shape of a function. -/
structure WellFormed (body : Body) : Prop where
  ended : ∀ b ∈ body, b.terminator.isSome = true
  targets : ∀ k, ∀ t ∈ body.succs k, t < body.length
  entry : body.preds 0 = []
  phis : ∀ b ∈ body, b.lines.Pairwise fun l l' => l'.instr.isPhi = true → l.instr.isPhi = true
  numbers : ∀ k i l k' i' l', body.line? k i = some l → body.line? k' i' = some l' →
    l.number = l'.number → k = k' ∧ i = i'
  incoming : ∀ k i l, body.line? k i = some l → l.instr.isPhi = true →
    (l.instr.incoming.map (·.2)).Nodup ∧ (l.instr.incoming.map (·.2)).Perm (body.preds k)
  uses : ∀ k i l, body.line? k i = some l → ∀ x ∈ l.instr.operands, ∀ n ∈ x.line?,
    body.Available n k i
  phi_uses : ∀ k i l, body.line? k i = some l → ∀ e ∈ l.instr.incoming, ∀ n ∈ e.1.line?,
    body.Available n e.2 (body.count e.2)
  end_uses : ∀ k t, body.terminator? k = some t → ∀ x ∈ t.operands, ∀ n ∈ x.line?,
    body.Available n k (body.count k)

end Body

/-! Types -/

/-- The operations on integers. -/
def BinaryOp.isInt : BinaryOp → Bool
  | .add | .sub | .mul | .sdiv | .srem | .xor => true
  | .fadd | .fsub | .fmul | .fdiv => false

/-- An instruction has operands of the types that it works on. -/
inductive Instr.Typed : Instr → Prop
  | alloca {type : Ty} (value : type ≠ .void) : Typed (.alloca type)
  | load {type : Ty} {x : Operand} (value : type ≠ .void) (address : x.type = .ptr type) :
      Typed (.load type x)
  | store {x y : Operand} (address : y.type = .ptr x.type) : Typed (.store x y)
  | int {op : BinaryOp} {x y : Operand} {width : Nat} (int : op.isInt = true)
      (left : x.type = .int width) (right : y.type = .int width) : Typed (.binary op x y)
  | float {op : BinaryOp} {x y : Operand} (float : op.isInt = false)
      (left : x.type = .double) (right : y.type = .double) : Typed (.binary op x y)
  | fneg {x : Operand} (operand : x.type = .double) : Typed (.fneg x)
  | icmp {pred : IntPred} {x y : Operand} {width : Nat} (left : x.type = .int width)
      (right : y.type = .int width) : Typed (.icmp pred x y)
  | fcmp {pred : FloatPred} {x y : Operand} (left : x.type = .double)
      (right : y.type = .double) : Typed (.fcmp pred x y)
  | select {c x y : Operand} (cond : c.type = .i1) (same : x.type = y.type) :
      Typed (.select c x y)
  | phi {type : Ty} {incoming : List (Operand × Nat)} (value : type ≠ .void)
      (operands : ∀ e ∈ incoming, e.1.type = type) : Typed (.phi type incoming)
  | element {type : Ty} {x y : Operand} (base : x.type = .ptr type) (index : y.type = .i64) :
      Typed (.element type x y)
  | bitcast {x : Operand} {elem elem' : Ty} (pointer : x.type = .ptr elem) :
      Typed (.bitcast x (.ptr elem'))
  | call {f : Operand} {args : List Operand} {result : Ty} {params : List Ty}
      (callee : f.type = .ptr (.func result params)) (operands : args.map (·.type) = params) :
      Typed (.call f args)

/-- The end of a block has an operand of the type that it needs, in a function with the type
`result` of its result. -/
inductive Terminator.Typed (result : Ty) : Terminator → Prop
  | jump {b : Nat} : Typed result (.jump b)
  | branch {x : Operand} {yes no : Nat} (cond : x.type = .i1) : Typed result (.branch x yes no)
  | ret {x : Operand} (value : x.type = result) : Typed result (.ret (some x))
  | retVoid (void : result = .void) : Typed result (.ret none)
  | unreachable : Typed result .unreachable

/-- What operands may refer to: the functions and constants of a module, and the parameters
and instructions of a function. -/
structure Visible where
  funcs : List Func
  globals : List Global
  params : List Param
  body : Body

/-- An operand has the type of what it refers to. -/
inductive Operand.Typed (v : Visible) : Operand → Prop
  | int {width : Nat} {n : Int} : Typed v (.int width n)
  | bool {b : Bool} : Typed v (.bool b)
  | double {x : Double} : Typed v (.double x)
  | param {i : Nat} {p : Param} (param : v.params[i]? = some p) : Typed v (.param i p.type)
  | result {k i : Nat} {l : Line} (line : v.body.line? k i = some l) :
      Typed v (.result l.number l.instr.type)
  | func {f : Func} (func : f ∈ v.funcs) : Typed v f.address
  | global {g : Global} (global : g ∈ v.globals) : Typed v (.global g.name g.contents.type)
  | firstByte {g : Global} {length : Nat} (global : g ∈ v.globals)
      (text : g.contents.type = .array length .i8) : Typed v (.firstByte g.name length)
  | cast {x : Operand} {elem elem' : Ty} (operand : Typed v x) (pointer : x.type = .ptr elem) :
      Typed v (.cast x (.ptr elem'))

/-- What is visible may become more. -/
theorem Operand.Typed.mono {v v' : Visible} {x : Operand} (h : x.Typed v)
    (hfuncs : ∀ f ∈ v.funcs, ∃ f' ∈ v'.funcs, f'.address = f.address)
    (hglobals : v.globals ⊆ v'.globals)
    (hparams : v'.params = v.params)
    (hlines : ∀ k i l, v.body.line? k i = some l → ∃ l', v'.body.line? k i = some l' ∧
      l'.number = l.number ∧ l'.instr.type = l.instr.type) : x.Typed v' := by
  induction h with
  | int => exact .int
  | bool => exact .bool
  | double => exact .double
  | param hparam => exact .param (hparams ▸ hparam)
  | result hline =>
      obtain ⟨l', hline', hnumber, htype⟩ := hlines _ _ _ hline
      rw [← hnumber, ← htype]
      exact .result hline'
  | func hfunc =>
      obtain ⟨f', hfunc', haddress⟩ := hfuncs _ hfunc
      rw [← haddress]
      exact .func hfunc'
  | global hglobal => exact .global (hglobals hglobal)
  | firstByte hglobal htext => exact .firstByte (hglobals hglobal) htext
  | cast _ hpointer ih => exact .cast ih hpointer

namespace Body

/-- The operands and results of a function have the types that its instructions need. -/
structure Typed (v : Visible) (result : Ty) (body : Body) : Prop where
  instrs : ∀ k i l, body.line? k i = some l → l.instr.Typed
  operands : ∀ k i l, body.line? k i = some l → ∀ x ∈ l.instr.operands, x.Typed v
  incoming : ∀ k i l, body.line? k i = some l → ∀ e ∈ l.instr.incoming, e.1.Typed v
  ends : ∀ k t, body.terminator? k = some t → t.Typed result ∧ ∀ x ∈ t.operands, x.Typed v

end Body

end ClassLang.Llvm

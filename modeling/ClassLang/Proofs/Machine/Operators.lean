import Mathlib.Data.Int.Order.Basic
import Mathlib.Order.Compare
import ClassLang.Proofs.Check.Session
import ClassLang.Proofs.Graph.Expr
import ClassLang.Proofs.Machine.Yields

/-!
Operators at run time compute what they fold to. Folding knows no bounds, but the constants of a
unit that passes are machine words, and so is what they are combined to; only the quotient of the
smallest integer and -1 wraps around on both sides.
-/

namespace ClassLang

open Check

namespace Constant

variable {m n : Int}

theorem toInt_ofInt (hm : minInt ≤ m ∧ m ≤ maxInt) : (Int64.ofInt m).toInt = m := by
  rw [Int64.toInt_ofInt]
  simp only [minInt, maxInt] at hm
  exact Int.bmod_eq_of_le (by simp only [Int64.size]; omega) (by simp only [Int64.size]; omega)

theorem ofInt_div (hm : minInt ≤ m ∧ m ≤ maxInt) (hn : minInt ≤ n ∧ n ≤ maxInt) :
    Int64.ofInt m / Int64.ofInt n = Int64.ofInt (quotient m n) := by
  refine Int64.toInt_inj.1 ?_
  rw [Int64.toInt_div, toInt_ofInt hm, toInt_ofInt hn, Int64.toInt_ofInt, quotient, Int.bmod_bmod]

theorem ofInt_mod (hm : minInt ≤ m ∧ m ≤ maxInt) (hn : minInt ≤ n ∧ n ≤ maxInt)
    (hfits : minInt ≤ m.tmod n ∧ m.tmod n ≤ maxInt) :
    Int64.ofInt m % Int64.ofInt n = Int64.ofInt (m.tmod n) := by
  refine Int64.toInt_inj.1 ?_
  rw [Int64.toInt_mod, toInt_ofInt hm, toInt_ofInt hn, toInt_ofInt hfits]

theorem ofInt_inj (hm : minInt ≤ m ∧ m ≤ maxInt) (hn : minInt ≤ n ∧ n ≤ maxInt) :
    Int64.ofInt m = Int64.ofInt n ↔ m = n := by
  rw [← Int64.toInt_inj, toInt_ofInt hm, toInt_ofInt hn]

theorem ofInt_lt (hm : minInt ≤ m ∧ m ≤ maxInt) (hn : minInt ≤ n ∧ n ≤ maxInt) :
    Int64.ofInt m < Int64.ofInt n ↔ m < n := by
  rw [Int64.lt_iff_toInt_lt, toInt_ofInt hm, toInt_ofInt hn]

theorem ofInt_le (hm : minInt ≤ m ∧ m ≤ maxInt) (hn : minInt ≤ n ∧ n ≤ maxInt) :
    Int64.ofInt m ≤ Int64.ofInt n ↔ m ≤ n := by
  rw [Int64.le_iff_toInt_le, toInt_ofInt hm, toInt_ofInt hn]

end Constant

namespace Machine

open Graph (Op)

variable {f : Frame} {v : Graph.Instr} {op : BinaryOp} {a b c : Constant}

/-- An operator on integers computes what it folds to. -/
theorem binary_ofInt {m n : Int} (hop : v.op = Op.ofInt op)
    (hm : Constant.minInt ≤ m ∧ m ≤ Constant.maxInt)
    (hn : Constant.minInt ≤ n ∧ n ≤ Constant.maxInt) (hdivisor : op = .div ∨ op = .rem → n ≠ 0)
    (hc : Constant.binaryInt op m n = some c) (hfits : c.Fits (BinaryOp.result op .int)) :
    binary f v (.int (Int64.ofInt m)) (.int (Int64.ofInt n)) = .ok (.ofConstant c) := by
  have hzero : Int64.ofInt n = 0 ↔ n = 0 :=
    Constant.ofInt_inj (n := 0) hn ⟨by decide, by decide⟩
  have hlt := Constant.ofInt_lt hm hn
  have hle := Constant.ofInt_le hm hn
  have hlt' := Constant.ofInt_lt hn hm
  have hle' := Constant.ofInt_le hn hm
  have heq := Constant.ofInt_inj hm hn
  cases op with
  | or | and => simp [Constant.binaryInt, Constant.orderTest] at hc
  | add | sub | mul =>
      obtain rfl := Option.some.inj hc
      simp [binary, intOp, hop, Op.ofInt, Value.ofConstant, Int64.ofInt_add, Int64.ofInt_sub,
        Int64.ofInt_mul]
  | div =>
      obtain rfl := Option.some.inj hc
      simp [binary, intOp, hop, Op.ofInt, Value.ofConstant, hzero, hdivisor,
        Constant.ofInt_div hm hn]
  | rem =>
      obtain rfl := Option.some.inj hc
      simp [binary, intOp, hop, Op.ofInt, Value.ofConstant, hzero, hdivisor,
        Constant.ofInt_mod hm hn hfits]
  | eql | neq | lss | leq | gtr | geq =>
      obtain rfl := Option.some.inj hc
      simp only [binary, intOp, hop, Op.ofInt, Value.ofConstant, Value.same]
      refine congrArg (fun b => Except.ok (Value.bool b)) (Bool.eq_iff_iff.2 ?_)
      rcases lt_trichotomy m n with h | h | h
      · simp [heq, hlt, hle, hlt', hle', compare_lt_iff_lt.2 h, h.ne, h.le, h, h.not_gt, h.not_ge]
      · simp [h]
      · simp [heq, hlt, hle, hlt', hle', compare_gt_iff_gt.2 h, h.ne', h.le, h, h.not_gt, h.not_ge]

end Machine

/-- The integers, the truth values and the texts: the types whose constants are computed exactly. -/
def Ty.isExact (t : Ty) : Bool := t.isInt || t.isBool || t.isStr

namespace Constant

variable {op : BinaryOp} {a b : Constant} {t : Ty}

theorem Fits.exists_int {a : Constant} (h : a.Fits .int) :
    ∃ n, a = .int n ∧ minInt ≤ n ∧ n ≤ maxInt := by
  cases a with
  | int n => exact ⟨n, rfl, h⟩
  | _ => exact h.elim

theorem Fits.exists_bool {a : Constant} (h : a.Fits .bool) : ∃ b, a = .bool b := by
  cases a with
  | bool b => exact ⟨b, rfl⟩
  | _ => exact h.elim

theorem Fits.exists_str {a : Constant} (h : a.Fits .str) : ∃ s, a = .str s := by
  cases a with
  | str s => exact ⟨s, rfl⟩
  | _ => exact h.elim

theorem exact_cases (h : t.isExact = true) : t = .int ∨ t = .bool ∨ t = .str := by
  cases t <;> simp_all [Ty.isExact, Ty.isInt, Ty.isBool, Ty.isStr]

/-- An operator that is defined on a type folds two constants of it. -/
theorem binary_isSome (ht : t.isExact = true) (hdefined : BinaryOp.defined op t = true)
    (ha : a.Fits t) (hb : b.Fits t) : (binary op a b).isSome = true := by
  obtain rfl | rfl | rfl := exact_cases ht
  · obtain ⟨m, rfl, _⟩ := ha.exists_int
    obtain ⟨n, rfl, _⟩ := hb.exists_int
    cases op <;> first | rfl | cases hdefined
  · obtain ⟨x, rfl⟩ := ha.exists_bool
    obtain ⟨y, rfl⟩ := hb.exists_bool
    cases op <;> first | rfl | cases hdefined
  · obtain ⟨x, rfl⟩ := ha.exists_str
    obtain ⟨y, rfl⟩ := hb.exists_str
    cases op <;> first | rfl | cases hdefined

theorem unary_isSome {op : UnaryOp} (ht : t.isExact = true)
    (hdefined : Typed.unaryDefined op t = true) (ha : a.Fits t) : (unary op a).isSome = true := by
  obtain rfl | rfl | rfl := exact_cases ht
  · obtain ⟨m, rfl, _⟩ := ha.exists_int
    cases op <;> first | rfl | cases hdefined
  · obtain ⟨x, rfl⟩ := ha.exists_bool
    cases op <;> first | rfl | cases hdefined
  · cases op <;> cases hdefined

end Constant

namespace Machine

open Graph (Op)

variable {f : Frame} {v : Graph.Instr} {op : BinaryOp} {a b c : Constant} {t : Ty}

/-- An operator on two operands that is not a logical one computes what it folds to. -/
theorem binary_ofConstant (ht : t.isExact = true) (hdefined : BinaryOp.defined op t = true)
    (hlogic : ¬(op = .and ∨ op = .or)) (hop : v.op = Op.ofBinary op t) (ha : a.Fits t)
    (hb : b.Fits t) (hdivisor : op = .div ∨ op = .rem → b.isZero = false)
    (hc : Constant.binary op a b = some c) (hfits : c.Fits (BinaryOp.result op t)) :
    binary f v (.ofConstant a) (.ofConstant b) = .ok (.ofConstant c) := by
  obtain rfl | rfl | rfl := Constant.exact_cases ht
  · obtain ⟨m, rfl, hm⟩ := ha.exists_int
    obtain ⟨n, rfl, hn⟩ := hb.exists_int
    exact binary_ofInt hop hm hn (fun h => by simpa [Constant.isZero] using hdivisor h) hc hfits
  · obtain ⟨x, rfl⟩ := ha.exists_bool
    obtain ⟨y, rfl⟩ := hb.exists_bool
    cases op with
    | or | and => simp at hlogic
    | eql | neq =>
        obtain rfl := Option.some.inj hc
        simp [binary, hop, Op.ofBinary, Op.ofInt, Value.ofConstant, Value.same, bne]
    | _ => cases hdefined
  · obtain ⟨x, rfl⟩ := ha.exists_str
    obtain ⟨y, rfl⟩ := hb.exists_str
    cases op with
    | eql | neq =>
        obtain rfl := Option.some.inj hc
        simp [binary, hop, Op.ofBinary, Op.ofStr, Value.ofConstant, bne]
    | _ => cases hdefined

/-- An operator on one operand computes what it folds to. -/
theorem unary_ofConstant {op : UnaryOp} (ht : t.isExact = true) (hop : v.op = Op.ofUnary op t)
    (ha : a.Fits t) (hc : Constant.unary op a = some c) :
    unary v (.ofConstant a) = .ok (.ofConstant c) := by
  obtain rfl | rfl | rfl := Constant.exact_cases ht
  · obtain ⟨n, rfl, _⟩ := ha.exists_int
    cases op with
    | neg =>
        obtain rfl := Option.some.inj hc
        simp [unary, hop, Op.ofUnary, Value.ofConstant, Int64.ofInt_neg]
    | not => cases hc
  · obtain ⟨b, rfl⟩ := ha.exists_bool
    cases op with
    | neg => cases hc
    | not =>
        obtain rfl := Option.some.inj hc
        simp [unary, hop, Op.ofUnary, Value.ofConstant]
  · obtain ⟨s, rfl⟩ := ha.exists_str
    cases op <;> cases hc

end Machine

end ClassLang

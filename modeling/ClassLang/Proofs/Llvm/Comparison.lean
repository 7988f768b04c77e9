import ClassLang.Proofs.Llvm.Division
import ClassLang.Proofs.Text.Utf8

/-!
Comparisons. What is written for a comparison gives the truth value that the language gives,
but for two cases. Numbers one of which is not a number are not different for a module, although
they are not equal either; and texts are compared up to their first zeros.
-/

namespace ClassLang

namespace Double

variable {x y : Double}

/-- Numbers are ordered unless one of them is not a number. -/
theorem compare?_eq_none : x.compare? y = none ↔ x.view = .nan ∨ y.view = .nan := by
  unfold compare?
  cases x.view <;> cases y.view <;> simp

theorem swap_compareRat (p q : Rat) :
    Constant.compareRat q p = (Constant.compareRat p q).swap := by
  unfold Constant.compareRat
  by_cases hlt : p < q
  · have hne : q ≠ p := fun heq => Rat.lt_irrefl (heq ▸ hlt)
    rw [if_pos hlt, if_neg (Rat.not_lt.2 (Rat.le_of_lt hlt)), if_neg hne]
    rfl
  · by_cases heq : p = q
    · subst heq
      rw [if_neg hlt, if_pos rfl]
      rfl
    · have hgt : q < p := Rat.lt_of_le_of_ne (Rat.not_lt.1 hlt) (Ne.symm heq)
      rw [if_pos hgt, if_neg hlt, if_neg heq]
      rfl

/-- The order of two numbers, taken the other way round. -/
theorem compare?_swap (x y : Double) : y.compare? x = (x.compare? y).map Ordering.swap := by
  unfold compare?
  cases x.view with
  | nan => cases y.view <;> rfl
  | infinite a =>
      cases y.view with
      | nan => rfl
      | infinite b => cases a <;> cases b <;> rfl
      | finite => cases a <;> rfl
  | finite =>
      cases y.view with
      | nan => rfl
      | infinite b => cases b <;> rfl
      | finite => exact congrArg some (swap_compareRat ..)

end Double

namespace Llvm

variable {c : Context} {s : Writer} {f : Frame} {x y : Operand} {arg arg' : Option Nat}
  {v : Graph.Instr} {strcmp : Comparison}

/-! Texts -/

theorem upToZero_constant (bytes : List UInt8) : upToZero (bytes ++ [0]) = upToZero bytes := by
  unfold upToZero
  induction bytes with
  | nil => rfl
  | cons b bytes ih => 
      rw [List.cons_append, List.takeWhile_cons, List.takeWhile_cons, ih]

/-! Which values are compared -/

/-- The values that an operation compares in programs that obey the rules. -/
inductive Comparable : Graph.Op → Machine.Value → Machine.Value → Prop
  | int {op : Graph.Op} (h : op ∈ [.eq64, .neq64, .lt64, .leq64, .gt64, .geq64]) (a b : Int64) :
      Comparable op (.int a) (.int b)
  | bool {op : Graph.Op} (h : op ∈ [.eq64, .neq64]) (a b : Bool) :
      Comparable op (.bool a) (.bool b)
  | float {op : Graph.Op} (h : op ∈ [.eqF64, .neqF64, .ltF64, .leqF64, .gtF64, .geqF64])
      (x y : Double) : Comparable op (.float x) (.float y)
  | str {op : Graph.Op} (h : op ∈ [.eqStr, .neqStr]) (a b : String) :
      Comparable op (.str a) (.str b)

/-- The comparisons of which a module thinks otherwise than the language. -/
inductive Apart : Graph.Op → Machine.Value → Machine.Value → Prop
  | nan {x y : Double} (h : x.view = .nan ∨ y.view = .nan) : Apart .neqF64 (.float x) (.float y)
  | zero {op : Graph.Op} {a b : String} (hne : a ≠ b)
      (h : upToZero (Utf8.encode a) = upToZero (Utf8.encode b)) : Apart op (.str a) (.str b)

/-! The predicates of operations -/

/-- How an operation compares integers and truth values. -/
def intPredOf : Graph.Op → Option IntPred
  | .eq64 => some .eq
  | .neq64 => some .ne
  | .lt64 => some .slt
  | .leq64 => some .sle
  | .gt64 => some .sgt
  | .geq64 => some .sge
  | _ => none

/-- How an operation compares floating-point numbers. -/
def floatPredOf : Graph.Op → Option FloatPred
  | .eqF64 => some .oeq
  | .neqF64 => some .one
  | .ltF64 => some .olt
  | .leqF64 => some .ole
  | .gtF64 => some .ogt
  | .geqF64 => some .oge
  | _ => none

/-- How an operation compares the order of texts with zero. -/
def textPredOf : Graph.Op → Option IntPred
  | .eqStr => some .eq
  | .neqStr => some .ne
  | _ => none

section

variable {op : Graph.Op} {pred : IntPred} {fpred : FloatPred}

theorem isSome_intPredOf (h : op ∈ [.eq64, .neq64, .lt64, .leq64, .gt64, .geq64]) :
    (intPredOf op).isSome = true := by
  revert h
  cases op <;> decide

theorem isSome_floatPredOf (h : op ∈ [.eqF64, .neqF64, .ltF64, .leqF64, .gtF64, .geqF64]) :
    (floatPredOf op).isSome = true := by
  revert h
  cases op <;> decide

theorem isSome_textPredOf (h : op ∈ [.eqStr, .neqStr]) : (textPredOf op).isSome = true := by
  revert h
  cases op <;> decide

/-- Texts are only compared for equality. -/
theorem textPred_holds (h : textPredOf op = some pred) {width : Nat} (a b : BitVec width) :
    pred.holds a b = if pred = .eq then decide (a = b) else decide (a ≠ b) := by
  revert h
  cases op <;> intro h <;> cases h <;> rfl

/-- Two questions that are asked in the same way have the same answer. -/
theorem decide_same_iff {P Q : Prop} [Decidable P] [Decidable Q] :
    (if pred = .eq then decide P else decide ¬P) = (if pred = .eq then decide Q else decide ¬Q) ↔
      (P ↔ Q) := by
  by_cases h : pred = .eq
  · rw [if_pos h, if_pos h, decide_eq_decide]
  · rw [if_neg h, if_neg h, decide_eq_decide, Decidable.not_iff_not]

theorem instr_compareInts (h : intPredOf v.op = some pred) :
    Write.instr c v = (do return some (← Write.compareInts c v pred)) := by
  unfold Write.instr
  revert h
  cases v.op <;> intro h <;> cases h <;> rfl

theorem instr_compareFloats (h : floatPredOf v.op = some fpred) :
    Write.instr c v = (do return some (← Write.compareFloats c v fpred)) := by
  unfold Write.instr
  revert h
  cases v.op <;> intro h <;> cases h <;> rfl

theorem instr_compareStrings (h : textPredOf v.op = some pred) :
    Write.instr c v = (do return some (← Write.compareStrings c v pred)) := by
  unfold Write.instr
  revert h
  cases v.op <;> intro h <;> cases h <;> rfl

/-! What the language says -/

theorem binary_int (h : intPredOf v.op = some pred) (frame : Machine.Frame) (a b : Int64) :
    Machine.binary frame v (.int a) (.int b) =
      .ok (.bool (pred.holds a.toBitVec b.toBitVec)) := by
  have heq : (a == b) = decide (a.toBitVec = b.toBitVec) := by
    rw [Bool.eq_iff_iff, decide_eq_true_iff, beq_iff_eq, Int64.toBitVec_inj]
  unfold Machine.binary Machine.intOp
  revert h
  cases v.op <;> intro h <;> cases h
  case eq64 => exact congrArg (fun b => Except.ok (Machine.Value.bool b)) heq
  case neq64 =>
    refine congrArg (fun b => Except.ok (Machine.Value.bool b)) ?_
    simp [Machine.Value.same, heq, IntPred.holds]
  all_goals
    refine congrArg (fun b => Except.ok (Machine.Value.bool b)) ?_
    rw [Bool.eq_iff_iff, decide_eq_true_iff]
    exact Iff.rfl

theorem binary_bool (h : intPredOf v.op = some pred) (hop : v.op = .eq64 ∨ v.op = .neq64)
    (frame : Machine.Frame) (a b : Bool) : Machine.binary frame v (.bool a) (.bool b) =
      .ok (.bool (pred.holds (BitVec.ofBool a) (BitVec.ofBool b))) := by
  unfold Machine.binary
  rcases hop with hop | hop
  · rw [hop] at h ⊢
    cases h
    cases a <;> cases b <;> rfl
  · rw [hop] at h ⊢
    cases h
    cases a <;> cases b <;> rfl

/-- The language takes numbers for different that are not ordered; a module does not. -/
theorem binary_float (h : floatPredOf v.op = some fpred) (frame : Machine.Frame) (x y : Double) :
    Machine.binary frame v (.float x) (.float y) =
      .ok (.bool (fpred.holds x y || (decide (v.op = .neqF64) && (x.compare? y).isNone))) := by
  have hswap := Double.compare?_swap x y
  unfold Machine.binary Machine.floatOp
  revert h
  cases v.op <;> intro h <;> cases h
  all_goals
    refine congrArg (fun b => Except.ok (Machine.Value.bool b)) ?_
    unfold FloatPred.holds
    simp only [Double.equal, Double.less, Double.lessEqual, hswap]
    cases x.compare? y with
    | none => rfl
    | some order => cases order <;> rfl

theorem binary_text (h : textPredOf v.op = some pred) (frame : Machine.Frame) (a b : String) :
    Machine.binary frame v (.str a) (.str b) =
      .ok (.bool (if pred = .eq then decide (a = b) else decide (a ≠ b))) := by
  unfold Machine.binary
  revert h
  cases v.op <;> intro h <;> cases h
  all_goals
    refine congrArg (fun b => Except.ok (Machine.Value.bool b)) ?_
    simp [Bool.beq_eq_decide_eq, bne]

end

/-! What a module computes -/

/-- The instructions that are written for `v` are run to their end and give the truth value
`r`. -/
def Computes (strcmp : Comparison) (c : Context) (v : Graph.Instr) (s : Writer) (f : Frame)
    (r : Bool) : Prop :=
  ∃ z t g, (Write.instr c v).run s = .ok (some z, t) ∧
    (∀ e, Ends strcmp t.body (t.current, t.body.count t.current)
      ⟨s.current, s.body.count s.current, f⟩ e ↔ e = .arrives g) ∧
    g.eval z = some (.bool r)

section

variable {d e : Datum} {r : Bool} {pred : IntPred} {fpred : FloatPred}

theorem computes_of_run {z : Operand} {is : List Instr} {g : Frame}
    (hrun : (Write.instr c v).run s = .ok (some z, s.emits is)) (hcur : s.current < s.blocks.size)
    (hthrough : f.through strcmp s.next is = some g) (hz : g.eval z = some (.bool r)) :
    Computes strcmp c v s f r :=
  ⟨z, _, g, hrun, fun _ => (emits_ends hcur hthrough).iff_eq, hz⟩

/-- The two operands of an instruction are looked up. -/
theorem operands_run {α : Type} (hargs : v.args = [arg, arg']) (hx : Supplies s f arg d x)
    (hy : Supplies s f arg' e y) (k : Operand → Operand → Write α) :
    (do k (← Write.argument c v 0) (← Write.argument c v 1)).run s = (k x y).run s := by
  rw [StateT.run_bind, argument_run (by rw [hargs]; rfl) hx]
  change ((Write.argument c v 1 >>= fun y => k x y) : Write α).run s = _
  rw [StateT.run_bind, argument_run (by rw [hargs]; rfl) hy]
  rfl

theorem computes_ints {width : Nat} (hpred : intPredOf v.op = some pred)
    (hargs : v.args = [arg, arg']) (hcur : s.current < s.blocks.size)
    (hx : Supplies s f arg d x) (hy : Supplies s f arg' e y) (htype : d.type = .int width)
    (heffect : (Instr.icmp pred x y).effect strcmp f = .give (some (.bool r))) :
    Computes strcmp c v s f r := by
  have hrun : (Write.instr c v).run s =
      .ok (some (.result s.next .i1), s.emits [.icmp pred x y]) := by
    rw [instr_compareInts hpred]
    change (Write.compareInts c v pred >>= fun z => pure (some z)).run s = _
    rw [StateT.run_bind, Write.compareInts, operands_run hargs hx hy (Write.icmp pred),
      icmp_run pred (hx.type.trans htype)]
    rfl
  exact computes_of_run hrun hcur (Frame.through_cons heffect) (Frame.eval_given ..)

theorem computes_floats {a b : Double} (hpred : floatPredOf v.op = some fpred)
    (hargs : v.args = [arg, arg']) (hcur : s.current < s.blocks.size)
    (hx : Supplies s f arg (.double a) x) (hy : Supplies s f arg' (.double b) y) :
    Computes strcmp c v s f (fpred.holds a b) := by
  have hemit : (Write.fcmp fpred x y).run s =
      .ok (.result s.next .i1, s.emits [.fcmp fpred x y]) := by
    unfold Write.fcmp
    rw [hx.type]
    rfl
  have hrun : (Write.instr c v).run s =
      .ok (some (.result s.next .i1), s.emits [.fcmp fpred x y]) := by
    rw [instr_compareFloats hpred]
    change (Write.compareFloats c v fpred >>= fun z => pure (some z)).run s = _
    rw [StateT.run_bind, Write.compareFloats, operands_run hargs hx hy (Write.fcmp fpred), hemit]
    rfl
  have heffect : (Instr.fcmp fpred x y).effect strcmp f =
      .give (some (.bool (fpred.holds a b))) := by
    simp only [Instr.effect, hx.eval, hy.eval]
  exact computes_of_run hrun hcur (Frame.through_cons heffect) (Frame.eval_given ..)

theorem computes_texts {a b : List UInt8} (hpred : textPredOf v.op = some pred)
    (hargs : v.args = [arg, arg']) (hcur : s.current < s.blocks.size)
    (hx : Supplies s f arg (.text a) x) (hy : Supplies s f arg' (.text b) y) :
    Computes strcmp c v s f (pred.holds (strcmp a b) 0) := by
  let is : List Instr := [.call compareTexts.address [x, y],
    .icmp pred (.result s.next .i32) (.int 32 0)]
  have hrun : (Write.instr c v).run s = .ok (some (.result (s.next + 1) .i1), s.emits is) := by
    rw [instr_compareStrings hpred]
    change (Write.compareStrings c v pred >>= fun z => pure (some z)).run s = _
    rw [StateT.run_bind, Write.compareStrings, operands_run hargs hx hy fun x y => do
      let order ← Write.call compareTexts.address [x, y]
      Write.icmp pred order (.int 32 0)]
    rfl
  have hcall : (Instr.call compareTexts.address [x, y]).effect strcmp f =
      .give (some (.int32 (strcmp a b))) := by
    change libraryCall strcmp compareTexts.name [f.eval x, f.eval y] = _
    rw [hx.eval, hy.eval, libraryCall, if_pos rfl]
  have hicmp : (Instr.icmp pred (.result s.next .i32) (.int 32 0)).effect strcmp
      (f.give s.next (some (.int32 (strcmp a b)))) =
        .give (some (.bool (pred.holds (strcmp a b) 0))) := by
    have hzero : (f.give s.next (some (.int32 (strcmp a b)))).eval (.int 32 0) =
        some (.int32 0) := rfl
    simp only [Instr.effect, Frame.eval_given, hzero]
  exact computes_of_run hrun hcur ((Frame.through_cons hcall).trans (Frame.through_cons hicmp))
    (Frame.eval_given ..)

end

/-- What is written for a comparison gives the truth value that the language gives, except where
the two are apart. -/
theorem comparison_agrees_iff {p q : Machine.Value} {d e : Datum} (hstrcmp : strcmp.Exact)
    (hop : Comparable v.op p q) (hp : Datum.ofValue? p = some d) (hq : Datum.ofValue? q = some e)
    (hargs : v.args = [arg, arg']) (hcur : s.current < s.blocks.size)
    (hx : Supplies s f arg d x) (hy : Supplies s f arg' e y) (frame : Machine.Frame) :
    ∃ r b, Computes strcmp c v s f r ∧ Machine.binary frame v p q = .ok (.bool b) ∧
      (r = b ↔ ¬Apart v.op p q) := by
  generalize hv : v.op = op at hop
  cases hop with
  | int h a b =>
      obtain ⟨pred, hpred⟩ := Option.isSome_iff_exists.1 (isSome_intPredOf (hv ▸ h))
      cases hp
      cases hq
      exact ⟨_, _, computes_ints hpred hargs hcur hx hy rfl (effect_icmp hx.eval hy.eval),
        binary_int hpred frame a b, iff_of_true rfl fun h => by cases h⟩
  | bool h a b =>
      have hpair : v.op = .eq64 ∨ v.op = .neq64 := by
        rw [hv]
        simpa using h
      obtain ⟨pred, hpred⟩ : ∃ pred, intPredOf v.op = some pred := by
        rcases hpair with hop | hop <;> rw [hop] <;> exact ⟨_, rfl⟩
      cases hp
      cases hq
      have heffect : (Instr.icmp pred x y).effect strcmp f =
          .give (some (.bool (pred.holds (BitVec.ofBool a) (BitVec.ofBool b)))) := by
        simp only [Instr.effect, hx.eval, hy.eval]
      exact ⟨_, _, computes_ints hpred hargs hcur hx hy rfl heffect,
        binary_bool hpred hpair frame a b, iff_of_true rfl fun h => by cases h⟩
  | float h a b =>
      obtain ⟨pred, hpred⟩ := Option.isSome_iff_exists.1 (isSome_floatPredOf (hv ▸ h))
      cases hp
      cases hq
      refine ⟨_, _, computes_floats hpred hargs hcur hx hy, binary_float hpred frame a b, ?_⟩
      have hnone := Double.compare?_eq_none (x := a) (y := b)
      by_cases hapart : v.op = .neqF64 ∧ a.compare? b = none
      · obtain ⟨hneq, hunordered⟩ := hapart
        obtain rfl : op = .neqF64 := hv.symm.trans hneq
        have hholds : pred.holds a b = false := by
          unfold FloatPred.holds
          rw [hunordered]
        rw [hholds, hunordered, decide_eq_true hneq]
        exact iff_of_false Bool.false_ne_true (not_not_intro (.nan (hnone.1 hunordered)))
      · have hsame : (decide (v.op = .neqF64) && (a.compare? b).isNone) = false := by
          simpa [Option.isSome_iff_ne_none] using hapart
        rw [hsame, Bool.or_false]
        refine iff_of_true rfl fun h => ?_
        cases h with
        | nan h => exact hapart ⟨hv, hnone.2 h⟩
  | str h a b =>
      obtain ⟨pred, hpred⟩ := Option.isSome_iff_exists.1 (isSome_textPredOf (hv ▸ h))
      cases hp
      cases hq
      refine ⟨_, _, computes_texts hpred hargs hcur hx hy, binary_text hpred frame a b, ?_⟩
      have hzero := hstrcmp.zero_iff (Utf8.encode a ++ [0]) (Utf8.encode b ++ [0])
      rw [upToZero_constant, upToZero_constant] at hzero
      have hapart : Apart op (.str a) (.str b) ↔ a ≠ b ∧
          upToZero (Utf8.encode a) = upToZero (Utf8.encode b) :=
        ⟨fun h => by cases h with | zero hne h => exact ⟨hne, h⟩, fun h => .zero h.1 h.2⟩
      have hequal : a = b → strcmp (Utf8.encode a ++ [0]) (Utf8.encode b ++ [0]) = 0 :=
        fun heq => hzero.2 (by rw [heq])
      rw [hapart, ← hzero, textPred_holds hpred, decide_same_iff]
      constructor
      · exact fun hiff hne => hne.1 (hiff.1 hne.2)
      · exact fun hne => ⟨fun h => Classical.byContradiction fun hab => hne ⟨hab, h⟩, hequal⟩

/-! Two numbers and two texts -/

/-- The order of the first bytes that differ. -/
def byteOrder : Comparison
  | [], [] => 0
  | [], _ :: _ => -1
  | _ :: _, [] => 1
  | a :: as, b :: bs => if a = b then byteOrder as bs else if a < b then -1 else 1

theorem byteOrder_eq_zero (a b : List UInt8) : byteOrder a b = 0 ↔ a = b := by
  fun_induction byteOrder a b with
  | case1 => simp
  | case2 => simp
  | case3 => simp
  | case4 as b bs ih => simpa using ih
  | case5 a as b bs hne => simp [hne]
  | case6 a as b bs hne => simp [hne]

/-- The comparison of the library looks at the bytes in front of the first zeros. -/
theorem byteOrder_exact : Comparison.Exact fun a b => byteOrder (upToZero a) (upToZero b) :=
  ⟨fun _ _ => byteOrder_eq_zero ..⟩

/-- A question about the first two instructions of a graph. -/
def question (op : Graph.Op) : Graph.Instr := { id := 2, op, args := [some 0, some 1], block := 0 }

/-- A function without instructions, in whose graph there are two operands. -/
def pairWriter (x y : Operand) : Writer :=
  { blocks := #[{ label := "b0" }], results := #[some x, some y, none], literals := [] }

/-- An activation of a function of a module with the texts "a" and "a", behind the second of
which there are a zero and "b". -/
def textFrame : Frame where
  params _ := none
  results _ := none
  texts name := some (Utf8.encode (if name = literalSymbol 0 then "a" else "a\x00b") ++ [0])

/-- Two texts that a module compares. -/
theorem question_answered :
    ∃ r b, Computes (fun a b => byteOrder (upToZero a) (upToZero b)) bareContext (question .eqStr)
        (pairWriter (.firstByte (literalSymbol 0) 2) (.firstByte (literalSymbol 1) 4)) textFrame r ∧
      Machine.binary default (question .eqStr) (.str "a") (.str "a\x00b") = .ok (.bool b) ∧
      (r = b ↔ ¬Apart .eqStr (.str "a") (.str "a\x00b")) := by
  have hold : ∀ name n, Frame.Older (.firstByte name n) 0 := fun _ _ _ hm => nomatch hm
  exact comparison_agrees_iff (c := bareContext) (f := textFrame) byteOrder_exact
    (.str (by decide) "a" "a\x00b") rfl rfl rfl (by decide)
    ⟨⟨0, rfl, rfl⟩, rfl, rfl, hold _ _⟩ ⟨⟨1, rfl, rfl⟩, rfl, rfl, hold _ _⟩ default

/-- For a module a number that is none does not differ from itself, and the two texts are the
same; for the language they differ. -/
theorem nan_and_zero_apart :
    (Computes (fun a b => byteOrder (upToZero a) (upToZero b)) bareContext (question .neqF64)
        (pairWriter (.double .nan) (.double .nan)) textFrame false ∧
      Machine.binary default (question .neqF64) (.float .nan) (.float .nan) = .ok (.bool true)) ∧
    Computes (fun a b => byteOrder (upToZero a) (upToZero b)) bareContext (question .eqStr)
        (pairWriter (.firstByte (literalSymbol 0) 2) (.firstByte (literalSymbol 1) 4)) textFrame true ∧
      Machine.binary default (question .eqStr) (.str "a") (.str "a\x00b") = .ok (.bool false) := by
  have hdouble : ∀ d n, Frame.Older (.double d) n := fun _ _ _ hm => nomatch hm
  have htext : ∀ name n m, Frame.Older (.firstByte name n) m := fun _ _ _ _ hm => nomatch hm
  have hnan : FloatPred.holds .one Double.nan Double.nan = false := by decide +kernel
  have hsame : IntPred.holds .eq (byteOrder (upToZero (Utf8.encode "a" ++ [0]))
      (upToZero (Utf8.encode "a\x00b" ++ [0]))) 0 = true := by decide +kernel
  refine ⟨⟨hnan ▸ computes_floats (c := bareContext) rfl rfl (by decide)
    ⟨⟨0, rfl, rfl⟩, rfl, rfl, hdouble _ _⟩ ⟨⟨1, rfl, rfl⟩, rfl, rfl, hdouble _ _⟩, ?_⟩, ?_, ?_⟩
  · exact congrArg (fun b => Except.ok (Machine.Value.bool b))
      (show (!Double.nan.equal Double.nan) = true by decide +kernel)
  · exact hsame ▸ computes_texts (c := bareContext) rfl rfl (by decide)
      ⟨⟨0, rfl, rfl⟩, rfl, rfl, htext _ _ _⟩ ⟨⟨1, rfl, rfl⟩, rfl, rfl, htext _ _ _⟩
  · exact congrArg (fun b => Except.ok (Machine.Value.bool b))
      (show ("a" == "a\x00b") = false by decide)

end Llvm

end ClassLang

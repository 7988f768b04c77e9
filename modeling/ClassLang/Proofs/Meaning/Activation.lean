import ClassLang.Graph.Lower
import ClassLang.Proofs.Machine.Yields
import ClassLang.Proofs.Meaning.Direct
import ClassLang.Proofs.Meaning.Receiver
import ClassLang.Proofs.Meaning.Values

/-!
Operators on values. An operator that is defined on the types of its operands has a value, or a
divisor is zero, and that is the same on the tree and in the machine.
-/

namespace ClassLang.Machine

open Direct (Course)
open ClassLang.Graph (Instr Op)

variable {t : Table} {σ : Marks} {ty : Ty} {ps : List TypeParam} {as : List Ty} {a b : Value}

/-- What operators are defined on does not depend on type parameters. -/
theorem subst_of_isBasic (h : ty.isBasic = true) : ty.subst ps as = ty := by
  cases ty <;>
    first
    | rfl
    | simp [Ty.isBasic, Ty.isNumeric, Ty.isInt, Ty.isFloat, Ty.isBool, Ty.isStr] at h

theorem constant_has {c : Constant} (h : c.Fits ty) :
    (Direct.ofConstant c).Has t σ (ty.subst ps as) := by
  rw [subst_of_isBasic h.basic]
  cases c <;> cases ty <;> first | constructor | simp [Constant.Fits] at h

/-- An operator that is defined on one operand has a value, the same one on the tree and in the
machine. -/
theorem exists_unary {op : UnaryOp} (hdefined : Typed.unaryDefined op ty = true)
    (ha : a.Has t σ (ty.subst ps as)) : ∃ x : Value, Direct.unary op a = .done x ∧
      x.Has t σ (ty.subst ps as) ∧
      ∀ w : Instr, w.op = Op.ofUnary op ty → Machine.unary w a = .ok x := by
  cases op with
  | not =>
      obtain rfl : ty = .bool := by cases ty <;> simp_all [Typed.unaryDefined, Ty.isBool]
      obtain ⟨x, rfl⟩ := ha.exists_bool
      exact ⟨_, rfl, .bool _, fun w hw => by simp [Machine.unary, hw, Op.ofUnary]⟩
  | neg =>
      obtain rfl | rfl : ty = .int ∨ ty = .float := by
        cases ty <;> simp_all [Typed.unaryDefined, Ty.isNumeric, Ty.isInt, Ty.isFloat]
      · obtain ⟨n, rfl⟩ := ha.exists_int
        exact ⟨_, rfl, .int _, fun w hw => by simp [Machine.unary, hw, Op.ofUnary]⟩
      · obtain ⟨q, rfl⟩ := ha.exists_float
        exact ⟨_, rfl, .float _, fun w hw => by simp [Machine.unary, hw, Op.ofUnary]⟩

/-- How an operator on two operands ends: with a value, or because the divisor is zero. -/
inductive Computed (t : Table) (σ : Marks) (ty : Ty) (op : BinaryOp) (operand : Ty) (func : String)
    (pos : Pos) (a b : Value) : Course Value → Prop
  | value {x : Value} (typed : x.Has t σ ty)
      (machine : ∀ (f : Frame) (w : Instr), w.op = Op.ofBinary op operand →
        Machine.binary f w a b = .ok x) : Computed t σ ty op operand func pos a b (.done x)
  | zero (machine : ∀ (f : Frame) (w : Instr), w.op = Op.ofBinary op operand →
        Machine.binary f w a b = f.fail w .divideByZero) :
      Computed t σ ty op operand func pos a b (.fail (.runtime func pos .divideByZero))

section

variable {op : BinaryOp} (func : String) (pos : Pos) (hlogic : ¬(op = .and ∨ op = .or))

include hlogic

theorem computed_ints (m n : Int64) : Computed t σ (Check.BinaryOp.result op .int) op .int func pos
    (.int m) (.int n) (Direct.binary func pos op (.int m) (.int n)) := by
  cases op with
  | div | rem =>
      simp only [Direct.binary, Direct.ofInts]
      by_cases hzero : n = 0
      · rw [if_pos hzero]
        exact .zero fun f w hw => by simp [Machine.binary, hw, Op.ofBinary, Op.ofInt, intOp, hzero]
      · rw [if_neg hzero]
        exact .value (.int _) fun f w hw => by
          simp [Machine.binary, hw, Op.ofBinary, Op.ofInt, intOp, hzero]
  | and | or => simp at hlogic
  | add | sub | mul =>
      exact .value (.int _) fun f w hw => by
        simp [Machine.binary, hw, Op.ofBinary, Op.ofInt, intOp]
  | eql | neq | lss | leq | gtr | geq =>
      exact .value (.bool _) fun f w hw => by
        simp [Machine.binary, hw, Op.ofBinary, Op.ofInt, intOp, Value.same]

theorem computed_floats (hrem : op ≠ .rem) (m n : Double) :
    Computed t σ (Check.BinaryOp.result op .float) op .float func pos (.float m) (.float n)
      (Direct.binary func pos op (.float m) (.float n)) := by
  cases op with
  | and | or => simp at hlogic
  | rem => exact absurd rfl hrem
  | add | sub | mul | div =>
      exact .value (.float _) fun f w hw => by
        simp [Machine.binary, hw, Op.ofBinary, Op.ofFloat, floatOp, Direct.ofFloats]
  | eql | neq | lss | leq | gtr | geq =>
      exact .value (.bool _) fun f w hw => by
        simp [Machine.binary, hw, Op.ofBinary, Op.ofFloat, floatOp, Direct.ofFloats]

/-- An operator that is defined on two operands ends in the same way on the tree and in the
machine. -/
theorem computed_binary (hdefined : Check.BinaryOp.defined op ty = true)
    (ha : a.Has t σ (ty.subst ps as)) (hb : b.Has t σ (ty.subst ps as)) :
    Computed t σ ((Check.BinaryOp.result op ty).subst ps as) op ty func pos a b
      (Direct.binary func pos op a b) := by
  have hbasic : ty.isBasic = true := by
    cases op <;> simp_all [Check.BinaryOp.defined, Ty.isBasic, Ty.isNumeric]
  have hresult : (Check.BinaryOp.result op ty).isBasic = true := by
    unfold Check.BinaryOp.result
    split
    · rfl
    · exact hbasic
  rw [subst_of_isBasic hbasic] at ha hb
  rw [subst_of_isBasic hresult]
  cases ty with
  | int =>
      obtain ⟨m, rfl⟩ := ha.exists_int
      obtain ⟨n, rfl⟩ := hb.exists_int
      exact computed_ints func pos hlogic m n
  | float =>
      obtain ⟨m, rfl⟩ := ha.exists_float
      obtain ⟨n, rfl⟩ := hb.exists_float
      refine computed_floats func pos hlogic ?_ m n
      rintro rfl
      simp [Check.BinaryOp.defined, Ty.isInt] at hdefined
  | bool =>
      obtain ⟨m, rfl⟩ := ha.exists_bool
      obtain ⟨n, rfl⟩ := hb.exists_bool
      cases op with
      | eql | neq =>
          exact .value (.bool _) fun f w hw => by
            simp [Machine.binary, hw, Op.ofBinary, Op.ofInt, Value.same]
      | and | or => simp at hlogic
      | _ => simp [Check.BinaryOp.defined, Ty.isNumeric, Ty.isInt, Ty.isFloat] at hdefined
  | str =>
      obtain ⟨m, rfl⟩ := ha.exists_str
      obtain ⟨n, rfl⟩ := hb.exists_str
      cases op with
      | eql | neq =>
          exact .value (.bool _) fun f w hw => by
            simp [Machine.binary, hw, Op.ofBinary, Op.ofStr, bne]
      | and | or => simp at hlogic
      | _ => simp [Check.BinaryOp.defined, Ty.isNumeric, Ty.isInt, Ty.isFloat] at hdefined
  | _ => simp [Ty.isBasic, Ty.isNumeric, Ty.isInt, Ty.isFloat, Ty.isBool, Ty.isStr] at hbasic

end

end ClassLang.Machine

/-!
What it means that code follows the course of an expression. What comes after the expression is a
parameter: if the code behind it follows that, for every value that the expression can have and
whatever has become known of the heap meanwhile, then all of it is followed. So the rules for
operators need not look at what comes after them.
-/

namespace ClassLang

namespace Direct

namespace Course

variable {α β γ : Type}

theorem andThen_assoc (c : Course α) (h : α → Course β) (k : β → Course γ) :
    (c.andThen h).andThen k = c.andThen fun a => (h a).andThen k := by
  induction c with
  | done a => rfl
  | fail e => rfl
  | lost => rfl
  | create cls next ih => exact congrArg (Course.create cls) (funext ih)
  | get x name next ih => exact congrArg (Course.get x name) (funext ih)
  | set x name y next ih => exact congrArg (Course.set x name y) ih
  | call target args next ih => exact congrArg (Course.call target args) (funext ih)
  | invoke x name args next ih => exact congrArg (Course.invoke x name args) (funext ih)

theorem bind_andThen (c : Course α) (h : α → Course β) (k : β → Course γ) :
    (c >>= h).andThen k = c.andThen fun a => (h a).andThen k := andThen_assoc c h k

theorem bind_pure (c : Course α) : c >>= pure = c := by
  change c.andThen .done = c
  induction c with
  | done a => rfl
  | fail e => rfl
  | lost => rfl
  | create cls next ih => exact congrArg (Course.create cls) (funext ih)
  | get x name next ih => exact congrArg (Course.get x name) (funext ih)
  | set x name y next ih => exact congrArg (Course.set x name y) ih
  | call target args next ih => exact congrArg (Course.call target args) (funext ih)
  | invoke x name args next ih => exact congrArg (Course.invoke x name args) (funext ih)

@[simp] theorem pure_andThen (a : α) (k : α → Course β) : (pure a : Course α).andThen k = k a := rfl

end Course

theorem ofConstant_eq (c : Constant) : ofConstant c = Machine.Value.ofConstant c := by
  cases c <;> rfl

/-- An expression whose value is known has no requests. -/
theorem expr_of_value {S : Setting} {env : Env} {c : Constant} :
    {e : Typed.Expr} → e.value? = some c → expr S env e = .done (ofConstant c)
  | .const .., h | .literal .., h => by
    obtain rfl := Option.some.inj h
    rfl
  | .unary _ _ _ _ value, h | .binary _ _ _ _ value, h => by
    obtain rfl : value = some c := h
    rw [expr]
    rfl
  | .paren _ x, h => by
    rw [expr]
    exact expr_of_value (e := x) h
  | .var .., h | .call .., h | .invoke .., h | .field .., h | .init .., h => by cases h

/-- An operator on two operands, both of which it needs. -/
theorem expr_binary {S : Setting} {env : Env} {op : BinaryOp} {x y : Typed.Expr} {ty : Ty}
    (hlogic : ¬(op = .and ∨ op = .or)) : expr S env (.binary op x y ty none) =
      expr S env x >>= fun a => expr S env y >>= fun b => binary S.func x.pos op a b := by
  cases op with
  | and | or => simp at hlogic
  | _ => rw [expr] <;> simp

/-- A logical operator needs its right operand only if the left one does not decide. -/
theorem expr_logic {S : Setting} {env : Env} {op : BinaryOp} {x y : Typed.Expr} {ty : Ty}
    (hlogic : op = .and ∨ op = .or) : expr S env (.binary op x y ty none) =
      expr S env x >>= fun a => truth a >>= fun b =>
        if b = decide (op = .and) then expr S env y else pure (.bool b) := by
  obtain rfl | rfl := hlogic
  · rw [expr]
    refine congrArg _ (funext fun a => congrArg _ (funext fun b => ?_))
    cases b <;> rfl
  · rw [expr]
    refine congrArg _ (funext fun a => congrArg _ (funext fun b => ?_))
    cases b <;> rfl

end Direct

namespace Graph.Op

theorem ofUnary_plain (op : UnaryOp) (t : Ty) :
    ofUnary op t ≠ .alloc ∧ ofUnary op t ≠ .setDispatch := by
  cases op <;> cases t <;> simp [ofUnary]

theorem ofBinary_plain (op : BinaryOp) (t : Ty) :
    ofBinary op t ≠ .alloc ∧ ofBinary op t ≠ .setDispatch := by
  cases op <;> cases t <;> simp [ofBinary, ofInt, ofFloat, ofStr]

end Graph.Op

namespace Machine

open Direct (Course Env)
open ClassLang.Graph (Instr Op Spot)

/-- An operator that fails on its operands. -/
theorem action_binary_error {f : Frame} {heap : Array Object} {w : Instr} {op : BinaryOp} {ty : Ty}
    {i j : Nat} {e : Failure} (hop : w.op = Op.ofBinary op ty) (hargs : w.args = [some i, some j])
    (hx : binary f w (f.value i) (f.value j) = .error e) : action f heap w = .error e := by
  have hleft : f.operand w 0 = .ok (f.value i) := by simp [Frame.operand, hargs]
  have hright : f.operand w 1 = .ok (f.value j) := by simp [Frame.operand, hargs]
  cases op <;> cases ty <;> simp [action, hop, Op.ofBinary, Op.ofInt, Op.ofFloat, Op.ofStr, hargs,
    hleft, hright, hx, Bind.bind, Except.bind]

/-! Activations -/

/-- What the activation of a function runs: its unit, what its type parameters stand for, its code
and the type of its result. A loop is given a number of rounds. -/
structure Activation where
  unit : Typed.File
  params : List TypeParam
  args : List Ty
  code : Graph.Builder
  result : Ty
  rounds : Nat

namespace Activation

variable (A : Activation)

/-- Where the course of the function stands. -/
def setting : Direct.Setting := ⟨A.unit, A.code.func.name, A.rounds⟩

/-- The table of the unit. -/
abbrev table : Table := A.unit.table

/-- What the body is typed against. -/
def context : Typed.Context := A.unit.context A.params

/-- What a type of the body stands for. -/
def type (ty : Ty) : Ty := ty.subst A.params A.args

/-- The course of an expression of the body. -/
def value (e : Typed.Expr) (env : Env) : Course Value := Direct.expr A.setting env e

/-- The frame follows a course of the function. -/
abbrev Follows (k : Nat) (σ : Marks) (c : Course Value) (f : Frame) : Prop :=
  Machine.Follows A.unit A.result k σ c f

end Activation

namespace Activation

/-- A variable that is visible under its name has a value, in its slot and in the environment. -/
structure Bound (A : Activation) (σ : Marks) (f : Frame) (v : Var) (e : String × Value) : Prop where
  name : v.name = e.1
  slot : ∃ i, A.code.slots.lookup v.pos = some i ∧ f.slots.getD i none = some e.2
  typed : e.2.Has A.table σ (A.type v.ty)

/-- What the environment says of the visible variables is what their slots hold, and all slots have
been made. -/
structure Sees (A : Activation) (σ : Marks) (f : Frame) (vars : List Var) (env : Env) : Prop where
  bound : List.Forall₂ (A.Bound σ f) vars env
  room : ∀ i, A.code.func.isSlot i = true → (f.slots.getD i none).isSome = true

/-- Behind the spot `q`, where the frame comes to from `f`, the code follows `next` with the value
of instruction `i`, whatever that is and whatever has become known of the heap. -/
def After (A : Activation) (k : Nat) (σ : Marks) (f : Frame) (n : Nat) (q : Spot) (i : Nat)
    (ty : Ty) (next : Value → Course Value) : Prop :=
  ∀ σ' f', σ.Le σ' → f.Comes A.code.func n q f' → (f'.value i).Has A.table σ' (A.type ty) →
    A.Follows k σ' (next (f'.value i)) f'

/-- The code from `p` to `q` follows a course with a value of type `ty`, which is that of
instruction `i`. -/
def Computes (A : Activation) (vars : List Var) (ty : Ty) (course : Env → Course Value)
    (p : Spot) (i : Nat) (q : Spot) : Prop :=
  ∀ ⦃k : Nat⦄ ⦃σ : Marks⦄ ⦃f : Frame⦄ ⦃env : Env⦄ ⦃next : Value → Course Value⦄,
    f.Stands A.code.func p → A.Sees σ f vars env → A.After k σ f p.count q i ty next →
    A.Follows k σ ((course env).andThen next) f

variable {A : Activation} {vars : List Var} {σ σ' : Marks} {f f' : Frame} {v : Var} {env : Env}
  {p q r : Spot} {i j k l m n : Nat} {ty : Ty} {e e' : Typed.Expr} {w : Instr} {pos : Pos}
  {next : Value → Course Value} {x : Value} {op : BinaryOp}

theorem Bound.later {e : String × Value} (h : A.Bound σ f v e) (hle : σ.Le σ')
    (hslots : f'.slots = f.slots) : A.Bound σ' f' v e :=
  ⟨h.name, by rw [hslots]; exact h.slot, h.typed.mono hle⟩

theorem Sees.later (h : A.Sees σ f vars env) (hle : σ.Le σ') (hslots : f'.slots = f.slots) :
    A.Sees σ' f' vars env :=
  ⟨List.Forall₂.imp (fun _ _ h => h.later hle hslots) h.bound, hslots ▸ h.room⟩

/-- A visible variable is found in the environment. -/
theorem Sees.find (h : A.Sees σ f vars env) {name : String}
    (hv : vars.find? (·.name = name) = some v) :
    ∃ x, env.lookup name = some x ∧ A.Bound σ f v (name, x) := by
  obtain ⟨hbound, -⟩ := h
  induction hbound with
  | nil => cases hv
  | @cons v' e vars env hbound _ ih =>
      obtain ⟨n, x⟩ := e
      obtain rfl : v'.name = n := hbound.name
      by_cases hname : v'.name = name
      · subst hname
        obtain rfl : v' = v := by simpa using hv
        exact ⟨x, by simp, hbound⟩
      · rw [List.find?_cons_of_neg (by simpa using hname)] at hv
        obtain ⟨y, hy, hbound'⟩ := ih hv
        exact ⟨y, by rw [List.lookup_cons, beq_false_of_ne (Ne.symm hname)]; exact hy, hbound'⟩

namespace After

theorem mono (h : A.After k σ f n q i ty next) (hle : l ≤ k) : A.After l σ f n q i ty next :=
  fun σ' f' hσ hf hty => (h σ' f' hσ hf hty).mono hle

/-- What follows is the same from where the frame has come to. -/
theorem from_ (h : A.After k σ f n q i ty next) (hσ : σ.Le σ') (hf : f.Comes A.code.func n p f')
    (hle : n ≤ m) : A.After k σ' f' m q i ty next :=
  fun σ'' f'' hσ' hf' hty => h σ'' f'' (hσ.trans hσ') (hf.trans hf' hle) hty

/-- The last instruction of an expression has its value. -/
theorem give (h : A.After k σ f n p.next p.count ty next) (hf : f.Stands A.code.func p)
    (hle : n ≤ p.count) (hw : A.code.func.Holds p w) (halloc : w.op ≠ .alloc)
    (hdispatch : w.op ≠ .setDispatch)
    (haction : f.On A.table σ fun s _ => action f s.machine.heap w = .ok (.give x))
    (hty : x.Has A.table σ (A.type ty)) : A.Follows k σ (next x) f := by
  refine .gives hf hw halloc hdispatch haction ?_
  have hnext := h σ _ (.refl σ) ((hf.past x).narrow hle)
  rw [Frame.value_past hf hw] at hnext
  exact (hnext hty).mono (Nat.sub_le k 1)

end After

namespace Computes

/-! Instructions -/

/-- An instruction that only has a value. -/
theorem instr {course : Env → Course Value} (halloc : w.op ≠ .alloc)
    (hdispatch : w.op ≠ .setDispatch) (hw : A.code.func.Holds p w)
    (hvalue : ∀ σ f env, f.Stands A.code.func p → A.Sees σ f vars env → ∃ x : Value,
      course env = .done x ∧ x.Has A.table σ (A.type ty) ∧
        ∀ heap, action f heap w = .ok (.give x)) : A.Computes vars ty course p p.count p.next := by
  intro k σ f env next hf hsees hnext
  obtain ⟨x, hcourse, hty, haction⟩ := hvalue σ f env hf hsees
  rw [hcourse]
  exact hnext.give hf (Nat.le_refl _) hw halloc hdispatch (fun s _ _ _ => haction s.machine.heap)
    hty

/-- The instruction of a constant. -/
theorem constant {c : Constant} {shown : Ty} (hw : A.code.func.Holds p (p.constant shown pos c))
    (hfits : c.Fits ty) {course : Env → Course Value}
    (hcourse : ∀ env, course env = .done (Direct.ofConstant c)) :
    A.Computes vars ty course p p.count p.next := by
  refine instr ?_ ?_ hw fun σ f env _ _ => ⟨_, hcourse env, constant_has hfits, fun heap => ?_⟩
  · cases c <;> simp [Spot.constant, Spot.instr]
  · cases c <;> simp [Spot.constant, Spot.instr]
  · rw [Direct.ofConstant_eq]
    exact action_constant shown pos c

/-- A variable. -/
theorem var {id : Ident} {slot : Nat} (hv : vars.find? (·.name = id.text) = some v)
    (hslot : A.code.slots.lookup v.pos = some slot)
    (hw : A.code.func.Holds p (p.instr .load (some v.ty) [slot] id.pos 0 none)) :
    A.Computes vars v.ty (A.value (.var id v)) p p.count p.next := by
  refine instr (by simp [Spot.instr]) (by simp [Spot.instr]) hw fun σ f env _ hsees => ?_
  obtain ⟨x, hx, hbound⟩ := hsees.find hv
  obtain ⟨slot', hslot', hvalue⟩ := hbound.slot
  obtain rfl : slot = slot' := Option.some.inj (hslot.symm.trans hslot')
  refine ⟨x, ?_, hbound.typed, fun heap => action_load hvalue⟩
  rw [value, Direct.expr, hx]
  rfl

/-! Operators -/

theorem unary {op : UnaryOp} (hx : A.Computes vars e.ty (A.value e) p i q)
    (hle : p.count ≤ q.count) (hdefined : Typed.unaryDefined op e.ty = true)
    (hw : A.code.func.Holds q (q.instr (Op.ofUnary op e.ty) (some e.ty) [i] pos 0 none)) :
    A.Computes vars e.ty (A.value (.unary pos op e e.ty none)) p q.count q.next := by
  intro k σ f env next hf hsees hnext
  rw [value, Direct.expr, Course.bind_andThen]
  refine hx hf hsees fun σ₁ f₁ hσ₁ hf₁ hty => ?_
  obtain ⟨y, hy, hyty, hunary⟩ := exists_unary hdefined hty
  rw [hy]
  obtain ⟨halloc, hdispatch⟩ := Op.ofUnary_plain op e.ty
  exact (hnext.from_ hσ₁ hf₁ hle).give hf₁.stands (Nat.le_refl _) hw halloc hdispatch
    (fun s _ _ _ => action_unary rfl rfl (hunary _ rfl)) hyty

/-- An arithmetic operator or a comparison. -/
theorem binary {shown : Ty} (hlogic : ¬(op = .and ∨ op = .or))
    (hx : A.Computes vars e.ty (A.value e) p i q) (hy : A.Computes vars e.ty (A.value e') q j r)
    (hle : p.count ≤ q.count) (hlt : i < q.count) (hle' : q.count ≤ r.count)
    (hdefined : Check.BinaryOp.defined op e.ty = true)
    (hw : A.code.func.Holds r (r.instr (Op.ofBinary op e.ty) (some shown) [i, j] e.pos 0 none)) :
    A.Computes vars (Check.BinaryOp.result op e.ty) (A.value (.binary op e e' shown none)) p r.count
      r.next := by
  intro k σ f env next hf hsees hnext
  rw [value, Direct.expr_binary hlogic, Course.bind_andThen]
  refine hx hf hsees fun σ₁ f₁ hσ₁ hf₁ hty₁ => ?_
  rw [Course.bind_andThen]
  refine hy hf₁.stands (hsees.later hσ₁ hf₁.slots) fun σ₂ f₂ hσ₂ hf₂ hty₂ => ?_
  have hkept : f₂.value i = f₁.value i := hf₂.keeps.values i hlt
  have hends := computed_binary A.setting.func e.pos hlogic hdefined (hty₁.mono hσ₂) hty₂
  rw [← hkept] at hends ⊢
  obtain ⟨halloc, hdispatch⟩ := Op.ofBinary_plain op e.ty
  generalize Direct.binary A.setting.func e.pos op (f₂.value i) (f₂.value j) = course at hends
  cases hends with
  | value typed machine =>
      exact (hnext.from_ (hσ₁.trans hσ₂) (hf₁.trans hf₂ hle) (Nat.le_trans hle hle')).give
        hf₂.stands (Nat.le_refl _) hw halloc hdispatch
        (fun s _ _ _ => action_binary rfl rfl (machine f₂ _ rfl)) typed
  | zero machine =>
      refine .fails hf₂.stands hw halloc hdispatch .divideByZero fun s _ _ _ => ?_
      have hfails : action f₂ s.machine.heap
          (r.instr (Op.ofBinary op e.ty) (some shown) [i, j] e.pos 0 none) = .error _ :=
        action_binary_error rfl rfl (machine f₂ _ rfl)
      rw [hf₂.stands.fn] at hfails
      exact hfails

/-- A logical operator, whose code is in two branches that meet. -/
theorem logic {shown : Ty} {side : Bool → Nat} {short : Spot} {merge : Nat}
    (hA : A.code.Finished) (hlogic : op = .and ∨ op = .or) (hbool : e.ty = .bool)
    (hx : A.Computes vars e.ty (A.value e) p i q) (hfork : A.code.func.Forks q i side)
    (hstart : short = ⟨side (!decide (op = .and)), 0, q.count⟩)
    (hshort : A.code.func.Holds short (short.instr .constBool (some .bool) [] Pos.none
      (if op = .and then 0 else 1) none))
    (hy : A.Computes vars e.ty (A.value e') ⟨side (decide (op = .and)), 0, q.count + 1⟩ j r)
    (hmerges : A.code.func.Merges short.next r [q.count, j] e.pos ⟨merge, 0, r.count⟩)
    (hle : p.count ≤ q.count) (hle' : q.count + 1 ≤ r.count) :
    A.Computes vars e.ty (A.value (.binary op e e' shown none)) p r.count
      (Spot.next ⟨merge, 0, r.count⟩) := by
  obtain ⟨hfirst, hsecond⟩ := idxOf?_merges hmerges
  intro k σ f env next hf hsees hnext
  rw [value, Direct.expr_logic hlogic, Course.bind_andThen]
  refine hx hf hsees fun σ₁ f₁ hσ₁ hf₁ hty₁ => ?_
  rw [hbool] at hty₁
  obtain ⟨a, ha⟩ := Value.Has.exists_bool hty₁
  rw [ha, Course.bind_andThen, Direct.truth, Course.pure_andThen]
  by_cases hdecides : a = decide (op = .and)
  · rw [if_pos hdecides]
    refine .forks hA hf₁.stands hfork ha (q.count + 1) fun f₂ hf₂ => ?_
    rw [hdecides] at hf₂
    refine hy (hf₂ 0).stands (hsees.later hσ₁ ((hf₂ 0).slots.trans hf₁.slots))
      fun σ₃ f₃ hσ₃ hf₃ hty₃ => ?_
    refine .merges hA hf₃.stands hmerges.second hmerges hsecond rfl fun f₄ hf₄ hvalue => ?_
    have hcomes := hf₁.trans ((hf₂ _).trans (hf₃.trans hf₄ hle') (Nat.le_refl _))
      (Nat.le_succ_of_le hle)
    have hlast := hnext σ₃ f₄ (hσ₁.trans hσ₃) hcomes
    rw [hvalue] at hlast
    exact (hlast hty₃).mono (by omega)
  · rw [if_neg hdecides]
    have hnot := Bool.eq_not.2 hdecides
    refine .forks hA hf₁.stands hfork ha q.count fun f₂ hf₂ => ?_
    rw [hnot, ← hstart] at hf₂
    have hcount : short.count = q.count := by rw [hstart]
    have haction : ∀ heap, action f₂ heap (short.instr .constBool (some .bool) [] Pos.none
        (if op = .and then 0 else 1) none) = .ok (.give (.bool a)) := by
      intro heap
      rw [hnot]
      by_cases hand : op = .and <;> simp [action, Spot.instr, hand]
    refine .gives (hf₂ 0).stands hshort (by simp [Spot.instr]) (by simp [Spot.instr])
      (fun s _ _ _ => haction s.machine.heap) ?_
    have hpast := (hf₂ short.count).stands.past (.bool a)
    have hvalue₃ := Frame.value_past (hf₂ 0).stands hshort (.bool a)
    refine .merges hA hpast.stands hmerges.first hmerges hfirst rfl fun f₄ hf₄ hvalue => ?_
    rw [hcount] at hpast hvalue₃
    have hcomes := hf₁.trans ((hf₂ _).trans (hpast.trans hf₄ (Nat.le_of_succ_le hle'))
      (Nat.le_refl _)) hle
    have hlast := hnext σ₁ f₄ hσ₁ hcomes
    rw [hvalue, hvalue₃] at hlast
    exact (hlast (hbool ▸ .bool a)).mono (by omega)

/-- Parentheses change nothing. -/
theorem paren (pos : Pos) (hx : A.Computes vars e.ty (A.value e) p i q) :
    A.Computes vars e.ty (A.value (.paren pos e)) p i q := by
  intro k σ f env next hf hsees hnext
  rw [value, Direct.expr]
  exact hx hf hsees hnext

end Computes

end Activation

end Machine

end ClassLang

import ClassLang.Proofs.Code.Rules
import ClassLang.Proofs.Machine.Spot

/-!
Expressions without side effects. The code of such an expression gives a value and changes
nothing but the values of its own instructions, wherever it stands.
-/

namespace ClassLang.Machine

open ClassLang.Graph (Instr Op Spot ExprCode)

/-- The value of a constant at run time. -/
def Value.ofConstant : Constant → Value
  | .int n => .int (Int64.ofInt n)
  | .float q => .float (Double.ofRat q)
  | .bool b => .bool b
  | .str s => .str s

/-- From `s`, whose top frame is `f`, the run gets to the spot `q`, where instruction `i` has the
value `x`. Apart from instructions from number `n` on nothing has changed. -/
def State.Gives (s : State) (f : Frame) (rest : List Frame) (g : Graph.Func) (n : Nat) (q : Spot)
    (i : Nat) (x : Value) : Prop :=
  ∃ f', s.Steps (s.withTop f' rest) ∧ f'.Stands g q ∧ f.Keeps n f' ∧ f'.slots = f.slots ∧
    f'.value i = x

/-- What an expression finds when it is computed: a machine, values of variables by the places where
they are declared, and the frames that called its function. -/
structure Scene where
  machine : ClassLang.Machine
  vars : Pos → Option Value
  rest : List Frame

namespace Scene

/-- The state `s` with the top frame `f`, which runs the function `t`, is one where the scene is found.
The heap may have got more objects, and nothing stops the run. -/
structure In (c : Scene) (t : Graph.Builder) (s : State) (f : Frame) : Prop where
  stack : s.stack = f :: c.rest
  vars : ∀ pos slot x, c.vars pos = some x → t.slots.lookup pos = some slot →
    f.slots.getD slot none = some x
  budget : s.budget = none
  machine : s.machine = { c.machine with heap := s.machine.heap }
  heap : ∀ (ref : Nat) o, c.machine.heap[ref]? = some o → s.machine.heap[ref]? = some o

/-- In the scene `c` the expression `e` has the value `x` and no side effects. -/
def Yields (c : Scene) (ls : Layouts) (e : Typed.Expr) (x : Value) : Prop :=
  ∀ ⦃t p i q⦄, Graph.Builder.Finished t → ExprCode ls t e p i q → ∀ s f, c.In t s f →
    f.Stands t.func p → s.Gives f c.rest t.func p.count q i x

end Scene

variable {c : Scene} {s : State} {f f' : Frame} {rest : List Frame} {g : Graph.Func} {p q q' : Spot}
  {i j n : Nat} {v : Instr} {x y z : Value} {ls : Layouts}

theorem Scene.In.next {t : Graph.Builder} (h : c.In t s f) (hslots : f'.slots = f.slots) :
    c.In t (s.withTop f' c.rest) f' :=
  ⟨rfl, hslots ▸ h.vars, h.budget, h.machine, h.heap⟩

theorem State.charged_of_none (h : s.budget = none) : s.charged = s := by
  unfold charged
  rw [h, Option.map_none, ← h]

namespace State.Gives

/-- What is given next is given by the whole run. -/
theorem trans (h : s.Gives f rest g n p i x)
    (h' : ∀ f', f'.Stands g p → f.Keeps n f' → f'.slots = f.slots → f'.value i = x →
      (s.withTop f' rest).Gives f' rest g n q j y) : s.Gives f rest g n q j y := by
  obtain ⟨f', hsteps, hf', hkeeps, hslots, hx⟩ := h
  obtain ⟨f'', hsteps', hf'', hkeeps', hslots', hy⟩ := h' f' hf' hkeeps hslots hx
  exact ⟨f'', hsteps.trans hsteps', hf'', hkeeps.trans hkeeps', hslots'.trans hslots, hy⟩

theorem narrow {m : Nat} (h : s.Gives f rest g n q i x) (hle : m ≤ n) :
    s.Gives f rest g m q i x := by
  obtain ⟨f', hsteps, hf', hkeeps, hslots, hx⟩ := h
  exact ⟨f', hsteps, hf', hkeeps.narrow hle, hslots, hx⟩

/-- An instruction that only has a value. -/
theorem instr (hstack : s.stack = f :: rest) (hf : f.Stands g p) (hv : g.Holds p v)
    (haction : action f s.machine.heap v = .ok (.give x)) :
    s.Gives f rest g p.count p.next p.count x :=
  ⟨_, .single (next_give hstack hf hv haction), hf.given x p.count, .given p.count f x _, rfl,
    hf.value_given hv x _⟩

/-- What is given behind a branch is given by the whole run. -/
theorem fork {t : Graph.Builder} {cond k : Nat} {side : Bool → Nat} {b : Bool} (ht : t.Finished)
    (hstack : s.stack = f :: rest) (hbudget : s.budget = none) (hf : f.Stands t.func p)
    (hfork : t.func.Forks p cond side) (hcond : f.value cond = .bool b)
    (h : ∀ f', f'.Stands t.func ⟨side b, 0, k⟩ → (∀ m, f.Keeps m f') → f'.slots = f.slots →
      (s.withTop f' rest).Gives f' rest t.func n q j y) : s.Gives f rest t.func n q j y := by
  obtain ⟨f₁, hsteps, hf₁, hkeeps, hslots⟩ := steps_land ht (next_fork hstack hf hfork hcond) hf
    (hfork.landing b) (by simp [hbudget]) k
  rw [charged_of_none hbudget] at hsteps
  obtain ⟨f₂, hsteps', hf₂, hkeeps', hslots', hy⟩ := h f₁ hf₁ hkeeps hslots
  exact ⟨f₂, hsteps.trans hsteps', hf₂, (hkeeps n).trans hkeeps', hslots'.trans hslots, hy⟩

/-- Where paths meet the value of the path that has been taken is given. -/
theorem merge {t : Graph.Builder} {args : List Nat} {pos : Pos} {r : Spot} {k : Nat}
    (ht : t.Finished) (hstack : s.stack = f :: rest) (hbudget : s.budget = none)
    (hf : f.Stands t.func p) (hlinks : t.func.Links p r.block)
    (hmerges : t.func.Merges q q' args pos r)
    (hk : (t.func.preds r.block).idxOf? p.block = some k) (hj : args[k]? = some j)
    (hj' : f.value j = y) : s.Gives f rest t.func r.count r.next r.count y := by
  obtain ⟨f', hsteps, hf', hkeeps, hslots, hy⟩ := steps_merge ht hstack hf hlinks hmerges.known
    hmerges.entry hmerges.start hmerges.phi hk hj (by simp [hbudget])
  rw [charged_of_none hbudget] at hsteps
  exact ⟨f', hsteps, hf', hkeeps, hslots, hy.trans hj'⟩

end State.Gives

/-- The two paths that meet are the first ones to lead there. -/
theorem idxOf?_merges {g : Graph.Func} {args : List Nat} {pos : Pos} {r : Spot}
    (h : g.Merges p q args pos r) : (g.preds r.block).idxOf? p.block = some 0 ∧
      (g.preds r.block).idxOf? q.block = some 1 := by
  obtain ⟨l, hl⟩ := h.preds
  rw [← hl]
  simp [List.idxOf?_cons, h.distinct]

/-! Actions -/

section

variable {heap : Array Object}

theorem action_constant (ty : Ty) (pos : Pos) (k : Constant) :
    action f heap (p.constant ty pos k) = .ok (.give (.ofConstant k)) := by
  cases k with
  | bool b => cases b <;> rfl
  | int | float | str => rfl

theorem action_load {slot : Nat} {ty : Option Ty} {pos : Pos}
    (hx : f.slots.getD slot none = some x) :
    action f heap (p.instr .load ty [slot] pos 0 none) = .ok (.give x) := by
  simp [action, Spot.instr, Frame.slot, hx, Bind.bind, Except.bind, Pure.pure, Except.pure]

theorem action_unary {op : UnaryOp} {ty : Ty} (hop : v.op = Op.ofUnary op ty)
    (hargs : v.args = [some i]) (hx : unary v (f.value i) = .ok x) :
    action f heap v = .ok (.give x) := by
  have hoperand : f.operand v 0 = .ok (f.value i) := by simp [Frame.operand, hargs]
  cases op <;> cases ty <;> simp [action, hop, Op.ofUnary, hoperand, hx, Bind.bind, Except.bind,
    Pure.pure, Except.pure]

theorem action_binary {op : BinaryOp} {ty : Ty} (hop : v.op = Op.ofBinary op ty)
    (hargs : v.args = [some i, some j]) (hx : binary f v (f.value i) (f.value j) = .ok x) :
    action f heap v = .ok (.give x) := by
  have hleft : f.operand v 0 = .ok (f.value i) := by simp [Frame.operand, hargs]
  have hright : f.operand v 1 = .ok (f.value j) := by simp [Frame.operand, hargs]
  cases op <;> cases ty <;> simp [action, hop, Op.ofBinary, Op.ofInt, Op.ofFloat, Op.ofStr, hargs,
    hleft, hright, hx, Bind.bind, Except.bind, Pure.pure, Except.pure]

end

/-! Rules -/

namespace Scene.Yields

variable {e e' : Typed.Expr} {pos : Pos} {ty : Ty}

/-- The instruction of a constant. -/
theorem of_constant {k : Constant} {t : Graph.Builder} (hc : c.In t s f) (hf : f.Stands t.func p)
    (hinstr : t.func.Holds p (p.constant ty pos k)) :
    s.Gives f c.rest t.func p.count p.next p.count (.ofConstant k) :=
  .instr hc.stack hf hinstr (action_constant ty pos k)

/-- An expression whose value is known beforehand. -/
theorem known {k : Constant} (hk : e.value? = some k) : c.Yields ls e (.ofConstant k) := by
  intro t p i q _ hcode s f hc hf
  cases hcode with
  | literal instr | const instr | unaryFolded instr | binaryFolded instr =>
      obtain rfl := Option.some.inj hk
      exact of_constant hc hf instr
  | parenFolded value instr =>
      obtain rfl := Option.some.inj (value.symm.trans hk)
      exact of_constant hc hf instr
  | paren value => exact absurd (value.symm.trans hk) (by simp)
  | _ => cases hk

/-- A variable. -/
theorem var {v : Var} (id : Ident) (hx : c.vars v.pos = some x) : c.Yields ls (.var id v) x := by
  intro t p i q _ hcode s f hc hf
  cases hcode with
  | @var _ _ _ slot found load =>
      exact State.Gives.instr hc.stack hf load (action_load (hc.vars _ _ _ hx found))

/-- A field of an object that is there. -/
theorem field {sel : Ident} {fd : Field} {ref k : Nat} {o : Object} {slot : FieldSlot}
    (h : c.Yields ls e (.obj ref)) (ho : c.machine.heap[ref]? = some o)
    (hplace : ls.fieldSlot? e.ty sel.text = some slot)
    (hx : fieldAt o (Int64.ofInt slot.offset) = .ok (k, x)) :
    c.Yields ls (.field e sel fd ty) x := by
  intro t p i q ht hcode s f hc hf
  cases hcode with
  | field object place load =>
      obtain rfl := Option.some.inj (place.symm.trans hplace)
      refine (h ht object s f hc hf).trans fun f' hf' _ _ hvalue => ?_
      refine (State.Gives.instr rfl hf' load ?_).narrow object.count_le.1
      have hheap : (s.withTop f' c.rest).machine.heap[ref]? = some o := hc.heap ref o ho
      simp [action, Spot.instr, Frame.object, Frame.operand, hvalue, hheap, hx, Bind.bind,
        Except.bind, Pure.pure, Except.pure]

/-- An operator on one operand, if its value is not known beforehand. -/
theorem unary {op : UnaryOp} (h : c.Yields ls e x)
    (hy : ∀ v : Instr, v.op = Op.ofUnary op e.ty → Machine.unary v x = .ok y) :
    c.Yields ls (.unary pos op e ty none) y := by
  intro t p i q ht hcode s f hc hf
  cases hcode with
  | unary operand instr =>
      refine (h ht operand s f hc hf).trans fun f' hf' _ hslots hx => ?_
      exact (State.Gives.instr rfl hf' instr
        (action_unary rfl rfl (hx ▸ hy _ rfl))).narrow operand.count_le.1

/-- An arithmetic operator or a comparison, if its value is not known beforehand. -/
theorem binary {op : BinaryOp} (hlogic : ¬(op = .and ∨ op = .or)) (h : c.Yields ls e x)
    (h' : c.Yields ls e' y)
    (hz : ∀ (f : Frame) (v : Instr), v.op = Op.ofBinary op e.ty → Machine.binary f v x y = .ok z) :
    c.Yields ls (.binary op e e' ty none) z := by
  intro t p i q ht hcode s f hc hf
  cases hcode with
  | logic hop => exact absurd hop hlogic
  | binary _ left right instr =>
      obtain ⟨hle, hlt⟩ := left.count_le
      refine (h ht left s f hc hf).trans fun f₁ hf₁ _ hslots₁ hx => ?_
      have hc₁ := hc.next hslots₁
      refine ((h' ht right _ f₁ hc₁ hf₁).trans fun f₂ hf₂ hkeeps hslots₂ hy => ?_).narrow hle
      rw [← hkeeps.values _ hlt] at hx
      exact (State.Gives.instr rfl hf₂ instr
        (action_binary rfl rfl (by rw [hx, hy]; exact hz _ _ rfl))).narrow right.count_le.1

/-- A logical operator computes its right operand only if the left one does not decide. -/
theorem logic {op : BinaryOp} (hlogic : op = .and ∨ op = .or) {a b : Bool}
    (h : c.Yields ls e (.bool a)) (h' : a = decide (op = .and) → c.Yields ls e' (.bool b)) :
    c.Yields ls (.binary op e e' ty none)
      (.bool (if a = decide (op = .and) then b else a)) := by
  intro t p i q ht hcode s f hc hf
  cases hcode with
  | binary hop => exact absurd hlogic hop
  | @logic _ _ _ _ _ r r' i j merge side short _ left fork start shortValue right merges =>
      obtain ⟨hfirst, hsecond⟩ := idxOf?_merges merges
      obtain ⟨hle, hlt⟩ := left.count_le
      have hle' := Nat.le_of_succ_le right.count_le.1
      refine (h ht left s f hc hf).trans fun f₁ hf₁ _ hslots₁ ha => ?_
      have hc₁ := hc.next hslots₁
      by_cases hdecides : a = decide (op = .and)
      · rw [if_pos hdecides]
        refine State.Gives.fork (k := r.count + 1) ht rfl hc₁.budget hf₁ fork ha
          fun f₂ hf₂ _ hslots₂ => ?_
        rw [hdecides] at hf₂
        refine ((h' hdecides ht right _ f₂ (hc₁.next hslots₂) hf₂).narrow
          (Nat.le_succ_of_le hle)).trans fun f₃ hf₃ _ _ hb => ?_
        exact (State.Gives.merge (s := s.withTop f₃ c.rest) ht rfl hc.budget hf₃ merges.second
          merges hsecond rfl hb).narrow (Nat.le_trans hle hle')
      · rw [if_neg hdecides]
        refine State.Gives.fork (k := r.count) ht rfl hc₁.budget hf₁ fork ha
          fun f₂ hf₂ _ _ => ?_
        rw [show side a = side (!decide (op = .and)) by rw [Bool.eq_not.2 hdecides], ← start] at hf₂
        have hvalue : action f₂ ((s.withTop f₁ c.rest).withTop f₂ c.rest).machine.heap
            (short.instr .constBool (some .bool) [] Pos.none (if op = .and then 0 else 1) none) =
              .ok (.give (.bool a)) := by
          rw [Bool.eq_not.2 hdecides]
          by_cases hand : op = .and <;> simp [action, Spot.instr, hand]
        refine ((State.Gives.instr rfl hf₂ shortValue hvalue).narrow ?_).trans
          fun f₃ hf₃ _ _ ha => ?_
        · rw [start]
          exact hle
        · rw [start] at ha hf₃
          exact (State.Gives.merge (s := s.withTop f₃ c.rest) ht rfl hc.budget hf₃
            (start ▸ merges.first) merges (start ▸ hfirst) rfl ha).narrow (Nat.le_trans hle hle')

theorem paren (h : c.Yields ls e x) (hvalue : ∀ k ∈ e.value?, x = .ofConstant k) :
    c.Yields ls (.paren pos e) x := by
  intro t p i q ht hcode s f hc hf
  cases hcode with
  | parenFolded value instr =>
      rw [hvalue _ value]
      exact of_constant hc hf instr
  | paren _ inner => exact h ht inner s f hc hf

end Scene.Yields

end ClassLang.Machine

import ClassLang.Graph.Lower
import ClassLang.Proofs.Graph.Logic
import ClassLang.Proofs.Graph.Spot

/-!
Which code belongs to an expression or a statement, said on a finished graph. The code of an
expression starts at one spot and ends at another, and its value is that of one instruction.
That construction makes such code is proved elsewhere; what the code does can be seen here.
-/

namespace ClassLang

/-- The place of the field `name` in the objects of a type. -/
def Layouts.fieldSlot? (ls : Layouts) (ty : Ty) (name : String) : Option FieldSlot :=
  (ty.className?.bind ls.named?).bind (·.field? name)

/-- The arguments of a function, with the numbers that their instructions carry. -/
def Typed.Header.indexed (h : Typed.Header) : List (Var × Int64) :=
  h.recv.toList.map (·, -1) ++ (h.params.map (·.1)).mapIdx fun i v => (v, Int64.ofNat i)

namespace Graph

/-- The operation of a call of the method `m`, given what has been computed before it. The
last spot is that of the call. -/
inductive CallsMethod (ls : Layouts) (f : Func) (kind : CallKind) (m : Method) (name : String)
    (sig : Signature) (pos : Pos) (recv : Nat) (args : List Nat) (p : Spot) : Spot → Prop
  | direct (direct : kind = .direct)
      (call : f.Holds p (p.instr .callDirect (some sig.result) (recv :: args) pos 0
        (some (.callee (.func m.ref))))) :
      CallsMethod ls f kind m name sig pos recv args p p
  | table {slot : Nat} (looked : kind ≠ .direct) (found : ls.slot? name = some slot)
      (table : f.Holds p (p.instr .dispatchTable none [recv] pos 0 none))
      (entry : f.Holds p.next (p.next.instr .dispatchEntry (some sig.ty) [p.count] pos
        (Int64.ofInt slot) (some (.text name))))
      (call : f.Holds p.next.next (p.next.next.instr .callIndirect (some sig.result)
        (p.next.count :: recv :: args) pos 0 none)) :
      CallsMethod ls f kind m name sig pos recv args p p.next.next

mutual

/-- The code from `p` to `q` computes an expression; instruction `i` has its value. -/
inductive ExprCode (ls : Layouts) (t : Builder) : Typed.Expr → Spot → Nat → Spot → Prop
  | var {id : Ident} {v : Var} {p : Spot} {slot : Nat}
      (found : t.slots.lookup v.pos = some slot)
      (load : t.func.Holds p (p.instr .load (some v.ty) [slot] id.pos 0 none)) :
      ExprCode ls t (.var id v) p p.count p.next
  | const {id : Ident} {sym : Symbol} {ty : Ty} {c : Constant} {p : Spot}
      (instr : t.func.Holds p (p.constant ty id.pos c)) :
      ExprCode ls t (.const id sym ty c) p p.count p.next
  | literal {pos : Pos} {kind : LitKind} {text : String} {ty : Ty} {c : Constant} {p : Spot}
      (instr : t.func.Holds p (p.constant ty pos c)) :
      ExprCode ls t (.literal pos kind text ty c) p p.count p.next
  | unaryFolded {pos : Pos} {op : UnaryOp} {x : Typed.Expr} {ty : Ty} {c : Constant} {p : Spot}
      (instr : t.func.Holds p (p.constant ty pos c)) :
      ExprCode ls t (.unary pos op x ty (some c)) p p.count p.next
  | unary {pos : Pos} {op : UnaryOp} {x : Typed.Expr} {ty : Ty} {p q : Spot} {i : Nat}
      (operand : ExprCode ls t x p i q)
      (instr : t.func.Holds q (q.instr (Op.ofUnary op x.ty) (some x.ty) [i] pos 0 none)) :
      ExprCode ls t (.unary pos op x ty none) p q.count q.next
  | binaryFolded {op : BinaryOp} {x y : Typed.Expr} {ty : Ty} {c : Constant} {p : Spot}
      (instr : t.func.Holds p (p.constant ty x.pos c)) :
      ExprCode ls t (.binary op x y ty (some c)) p p.count p.next
  | binary {op : BinaryOp} {x y : Typed.Expr} {ty : Ty} {p q r : Spot} {i j : Nat}
      (arithmetic : ¬(op = .and ∨ op = .or)) (left : ExprCode ls t x p i q)
      (right : ExprCode ls t y q j r)
      (instr : t.func.Holds r (r.instr (Op.ofBinary op x.ty) (some ty) [i, j] x.pos 0 none)) :
      ExprCode ls t (.binary op x y ty none) p r.count r.next
  | logic {op : BinaryOp} {x y : Typed.Expr} {ty : Ty} {p q r : Spot} {i j merge : Nat}
      {side : Bool → Nat} {short : Spot} (logic : op = .and ∨ op = .or)
      (left : ExprCode ls t x p i q) (fork : t.func.Forks q i side)
      (start : short = ⟨side (!decide (op = .and)), 0, q.count⟩)
      (shortValue : t.func.Holds short (short.instr .constBool (some .bool) [] Pos.none
        (if op = .and then 0 else 1) none))
      (right : ExprCode ls t y ⟨side (decide (op = .and)), 0, q.count + 1⟩ j r)
      (merges : t.func.Merges short.next r [q.count, j] x.pos ⟨merge, 0, r.count⟩) :
      ExprCode ls t (.binary op x y ty none) p r.count (Spot.next ⟨merge, 0, r.count⟩)
  | call {fn : Ident} {sym : Symbol} {targs : List Ty} {sig : Signature} {args : List Typed.Expr}
      {p q : Spot} {is : List Nat} (operands : ExprsCode ls t args p is q)
      (instr : t.func.Holds q (q.instr .callDirect (some sig.result) is fn.pos 0
        (some (.callee (Lower.calleeOf sym))))) :
      ExprCode ls t (.call fn sym targs sig args) p q.count q.next
  | invoke {x : Typed.Expr} {sel : Ident} {kind : CallKind} {m : Method} {sig : Signature}
      {args : List Typed.Expr} {p q r s : Spot} {i : Nat} {is : List Nat}
      (receiver : ExprCode ls t x p i q) (operands : ExprsCode ls t args q is r)
      (call : CallsMethod ls t.func kind m sel.text sig x.pos i is r s) :
      ExprCode ls t (.invoke x sel kind m sig args) p s.count s.next
  | field {x : Typed.Expr} {sel : Ident} {f : Field} {ty : Ty} {p q : Spot} {i : Nat}
      {slot : FieldSlot} (object : ExprCode ls t x p i q)
      (place : ls.fieldSlot? x.ty sel.text = some slot)
      (load : t.func.Holds q (q.instr .loadField (some ty) [i] sel.pos (Int64.ofInt slot.offset)
        (some (.text sel.text)))) :
      ExprCode ls t (.field x sel f ty) p q.count q.next
  | init {cls : Ident} {sym : Symbol} {ty : Ty} {fields : List Field}
      {elems : List (Ident × Typed.Expr)} {p q : Spot} {l : ClassLayout}
      (layout : ls.named? cls.text = some l)
      (alloc : t.func.Holds p (p.instr .alloc (some ty) [] cls.pos (Int64.ofInt l.size)
        (some (.layout l))))
      (fill : FillCode ls t l p.count elems p.next q)
      (dispatch : t.func.Holds q (q.instr .setDispatch none [p.count] Pos.none 0
        (some (.layout l)))) :
      ExprCode ls t (.init cls sym ty fields elems) p p.count q.next
  | parenFolded {pos : Pos} {x : Typed.Expr} {c : Constant} {p : Spot}
      (value : x.value? = some c) (instr : t.func.Holds p (p.constant x.ty pos c)) :
      ExprCode ls t (.paren pos x) p p.count p.next
  | paren {pos : Pos} {x : Typed.Expr} {p q : Spot} {i : Nat} (value : x.value? = none)
      (inner : ExprCode ls t x p i q) : ExprCode ls t (.paren pos x) p i q

/-- The code from `p` to `q` computes expressions from left to right. -/
inductive ExprsCode (ls : Layouts) (t : Builder) :
    List Typed.Expr → Spot → List Nat → Spot → Prop
  | nil {p : Spot} : ExprsCode ls t [] p [] p
  | cons {x : Typed.Expr} {rest : List Typed.Expr} {p q r : Spot} {i : Nat} {is : List Nat}
      (first : ExprCode ls t x p i q) (others : ExprsCode ls t rest q is r) :
      ExprsCode ls t (x :: rest) p (i :: is) r

/-- The code from `p` to `q` gives the object `obj` with the layout `l` its fields. -/
inductive FillCode (ls : Layouts) (t : Builder) :
    ClassLayout → Nat → List (Ident × Typed.Expr) → Spot → Spot → Prop
  | nil {l : ClassLayout} {obj : Nat} {p : Spot} : FillCode ls t l obj [] p p
  | cons {l : ClassLayout} {obj : Nat} {key : Ident} {x : Typed.Expr}
      {rest : List (Ident × Typed.Expr)} {p q r : Spot} {i : Nat} {slot : FieldSlot}
      (place : l.field? key.text = some slot)
      (first : ExprCode ls t x p i q)
      (store : t.func.Holds q (q.instr .storeField none [obj, i] key.pos (Int64.ofInt slot.offset)
        (some (.text key.text))))
      (others : FillCode ls t l obj rest q.next r) :
      FillCode ls t l obj ((key, x) :: rest) p r

end

theorem CallsMethod.count_le {ls : Layouts} {f : Func} {kind : CallKind} {m : Method}
    {name : String} {sig : Signature} {pos : Pos} {recv : Nat} {args : List Nat} {p q : Spot}
    (h : CallsMethod ls f kind m name sig pos recv args p q) : p.count ≤ q.count := by
  cases h with
  | direct => exact Nat.le_refl _
  | table => exact Nat.le_add_right _ 2

mutual

/-- The value of an expression is that of an instruction of its code or of an older one. -/
theorem ExprCode.count_le {ls : Layouts} {t : Builder} {e : Typed.Expr} {p q : Spot} {i : Nat} :
    ExprCode ls t e p i q → p.count ≤ q.count ∧ i < q.count
  | .var .. | .const .. | .literal .. | .unaryFolded .. | .binaryFolded .. | .parenFolded .. =>
    ⟨Nat.le_succ _, Nat.lt_succ_self _⟩
  | .unary operand _ => ⟨Nat.le_succ_of_le operand.count_le.1, Nat.lt_succ_self _⟩
  | .binary _ left right _ =>
    ⟨Nat.le_succ_of_le (Nat.le_trans left.count_le.1 right.count_le.1), Nat.lt_succ_self _⟩
  | .logic _ left _ _ _ right _ =>
    ⟨Nat.le_succ_of_le (Nat.le_trans left.count_le.1 (Nat.le_of_succ_le right.count_le.1)),
      Nat.lt_succ_self _⟩
  | .call operands _ => ⟨Nat.le_succ_of_le operands.count_le.1, Nat.lt_succ_self _⟩
  | .invoke receiver operands call =>
    ⟨Nat.le_succ_of_le (Nat.le_trans receiver.count_le.1
      (Nat.le_trans operands.count_le.1 call.count_le)), Nat.lt_succ_self _⟩
  | .field object _ _ => ⟨Nat.le_succ_of_le object.count_le.1, Nat.lt_succ_self _⟩
  | .init _ _ fill _ =>
    ⟨Nat.le_succ_of_le (Nat.le_of_succ_le fill.count_le), Nat.lt_succ_of_lt fill.count_le⟩
  | .paren _ inner => inner.count_le

theorem ExprsCode.count_le {ls : Layouts} {t : Builder} {xs : List Typed.Expr} {p q : Spot}
    {is : List Nat} : ExprsCode ls t xs p is q → p.count ≤ q.count ∧ ∀ i ∈ is, i < q.count
  | .nil => ⟨Nat.le_refl _, by simp⟩
  | .cons first others =>
    ⟨Nat.le_trans first.count_le.1 others.count_le.1, List.forall_mem_cons.2
      ⟨Nat.lt_of_lt_of_le first.count_le.2 others.count_le.1, others.count_le.2⟩⟩

theorem FillCode.count_le {ls : Layouts} {t : Builder} {l : ClassLayout} {obj : Nat}
    {elems : List (Ident × Typed.Expr)} {p q : Spot} :
    FillCode ls t l obj elems p q → p.count ≤ q.count
  | .nil => Nat.le_refl _
  | .cons _ first _ others =>
    Nat.le_trans first.count_le.1 (Nat.le_of_succ_le others.count_le)

end

/-! Statements -/

/-- The code at `p` adds one to the variable in a slot and goes on to the block `b`. -/
structure CountCode (f : Func) (slot : Nat) (p : Spot) (b : Nat) : Prop where
  load : f.Holds p (p.instr .load (some .int) [slot] Pos.none 0 none)
  one : f.Holds p.next (p.next.instr .const64 (some .int) [] Pos.none 1 none)
  add : f.Holds p.next.next
    (p.next.next.instr .add64 (some .int) [p.count, p.next.count] Pos.none 0 none)
  store : f.Holds p.next.next.next
    (p.next.next.next.instr .store none [slot, p.next.next.count] Pos.none 0 none)
  leads : f.Leads p.next.next.next.next b

/-- The code at `p` stores instruction `i` into the new slot of `v`. -/
structure BindCode (t : Builder) (v : Var) (i : Nat) (pos : Pos) (p : Spot) : Prop where
  slot : t.slots.lookup v.pos = some p.count
  store : t.func.Holds p.skip (p.skip.instr .store none [p.count, i] pos 0 none)

mutual

/-- The code from `p` on runs a statement. It gets to `q`, or returns if there is no such
spot. -/
inductive StmtCode (ls : Layouts) (t : Builder) : Typed.Stmt → Spot → Option Spot → Prop
  | empty {pos : Pos} {p : Spot} : StmtCode ls t (.empty pos) p (some p)
  | expr {x : Typed.Expr} {p q : Spot} {i : Nat} (code : ExprCode ls t x p i q) :
      StmtCode ls t (.expr x) p (some q)
  | bind {pos : Pos} {v : Var} {term : Typed.TypeTerm} {x : Typed.Expr} {p q : Spot} {i : Nat}
      (code : ExprCode ls t x p i q) (bind : BindCode t v i pos q) :
      StmtCode ls t (.bind pos v term x) p (some q.skip.next)
  | assignVar {x y : Typed.Expr} {id : Ident} {v : Var} {p q : Spot} {i slot : Nat}
      (target : x.unparen = .var id v) (found : t.slots.lookup v.pos = some slot)
      (code : ExprCode ls t y p i q)
      (store : t.func.Holds q (q.instr .store none [slot, i] x.pos 0 none)) :
      StmtCode ls t (.assign x y) p (some q.next)
  | assignField {x y z : Typed.Expr} {sel : Ident} {f : Field} {ty : Ty} {p q r : Spot}
      {i j : Nat} {slot : FieldSlot} (target : x.unparen = .field z sel f ty)
      (object : ExprCode ls t z p i q) (code : ExprCode ls t y q j r)
      (place : ls.fieldSlot? z.ty sel.text = some slot)
      (store : t.func.Holds r (r.instr .storeField none [i, j] x.pos (Int64.ofInt slot.offset)
        (some (.text sel.text)))) :
      StmtCode ls t (.assign x y) p (some r.next)
  | block {b : List Typed.Stmt} {p : Spot} {r : Option Spot} (code : StmtsCode ls t b p r) :
      StmtCode ls t (.block (.mk b)) p r
  | ifThen {cond : Typed.Expr} {b : List Typed.Stmt} {p q : Spot} {c n : Nat} {side : Bool → Nat}
      {r : Option Spot} (test : ExprCode ls t cond p c q) (fork : t.func.Forks q c side)
      (body : StmtsCode ls t b ⟨side true, 0, q.count⟩ r) (more : q.count ≤ n)
      (ends : ∀ e ∈ r, t.func.Leads e (side false) ∧ e.count ≤ n) :
      StmtCode ls t (.ifElse cond (.mk b) none) p (some ⟨side false, 0, n⟩)
  | ifElse {cond : Typed.Expr} {b : List Typed.Stmt} {other : Typed.Stmt} {p q : Spot}
      {c k : Nat} {side : Bool → Nat} {r r' out : Option Spot} (test : ExprCode ls t cond p c q)
      (fork : t.func.Forks q c side) (body : StmtsCode ls t b ⟨side true, 0, q.count⟩ r)
      (more : q.count ≤ k) (alternative : StmtCode ls t other ⟨side false, 0, k⟩ r')
      (ends : ∀ e, e ∈ r ∨ e ∈ r' → ∃ d n, out = some ⟨d, 0, n⟩ ∧ t.func.Leads e d ∧
        e.count ≤ n ∧ k ≤ n) :
      StmtCode ls t (.ifElse cond (.mk b) (some other)) p out
  | whileLoop {cond : Typed.Expr} {b : List Typed.Stmt} {p q : Spot} {header c n : Nat}
      {side : Bool → Nat} {r : Option Spot} (leads : t.func.Leads p header)
      (test : ExprCode ls t cond ⟨header, 0, p.count⟩ c q) (fork : t.func.Forks q c side)
      (body : StmtsCode ls t b ⟨side true, 0, q.count⟩ r) (more : q.count ≤ n)
      (ends : ∀ e ∈ r, t.func.Leads e header ∧ e.count ≤ n) :
      StmtCode ls t (.whileLoop cond (.mk b)) p (some ⟨side false, 0, n⟩)
  | forLoop {pos at_ : Pos} {v : Var} {low high : Typed.Expr} {b : List Typed.Stmt}
      {p q r s : Spot} {first last header n : Nat} {side : Bool → Nat} {e : Option Spot}
      (start : ExprCode ls t low p first q) (stop : ExprCode ls t high q last r)
      (bind : BindCode t v first pos r) (leads : t.func.Leads r.skip.next header)
      (enters : s = ⟨header, 0, r.skip.next.count⟩)
      (load : t.func.Holds s (s.instr .load (some .int) [r.count] Pos.none 0 none))
      (test : t.func.Holds s.next
        (s.next.instr .leq64 (some .bool) [s.count, last] Pos.none 0 none))
      (fork : t.func.Forks s.next.next s.next.count side)
      (body : StmtsCode ls t b ⟨side true, 0, s.next.next.count⟩ e)
      (more : s.next.next.count ≤ n)
      (ends : ∀ x ∈ e, CountCode t.func r.count x s.block ∧ x.count ≤ n) :
      StmtCode ls t (.forLoop pos v at_ low high (.mk b)) p (some ⟨side false, 0, n⟩)
  | ret {pos : Pos} {p : Spot} (quits : t.func.Quits p none) : StmtCode ls t (.ret pos none) p none
  | retValue {pos : Pos} {x : Typed.Expr} {p q : Spot} {i : Nat} (code : ExprCode ls t x p i q)
      (quits : t.func.Quits q (some i)) : StmtCode ls t (.ret pos (some x)) p none

/-- The code from `p` on runs statements up to the first that returns. -/
inductive StmtsCode (ls : Layouts) (t : Builder) : List Typed.Stmt → Spot → Option Spot → Prop
  | nil {p : Spot} : StmtsCode ls t [] p (some p)
  | last {s : Typed.Stmt} {rest : List Typed.Stmt} {p : Spot} (code : StmtCode ls t s p none) :
      StmtsCode ls t (s :: rest) p none
  | cons {s : Typed.Stmt} {rest : List Typed.Stmt} {p q : Spot} {r : Option Spot}
      (code : StmtCode ls t s p (some q)) (others : StmtsCode ls t rest q r) :
      StmtsCode ls t (s :: rest) p r

end

/-! Functions -/

/-- The code from `p` to `q` stores arguments into slots of their own. -/
inductive ParamsCode (t : Builder) : List (Var × Int64) → Spot → Spot → Prop
  | nil {p : Spot} : ParamsCode t [] p p
  | cons {v : Var} {index : Int64} {rest : List (Var × Int64)} {p q : Spot}
      (arg : t.func.Holds p (p.instr .arg (some v.ty) [] v.pos index (some (.text v.name))))
      (bind : BindCode t v p.count Pos.none p.next)
      (others : ParamsCode t rest p.next.skip.next q) :
      ParamsCode t ((v, index) :: rest) p q

/-- The code of a function with the body `b`. -/
inductive FuncCode (ls : Layouts) (t : Builder) (g : Typed.Func) (b : Typed.Block) : Prop
  | code {p : Spot} {r : Option Spot} (params : ParamsCode t g.header.indexed ⟨0, 0, 0⟩ p)
      (body : StmtsCode ls t b.stmts p r) (ends : ∀ e ∈ r, t.func.Quits e none) : FuncCode ls t g b

end Graph

end ClassLang

/-!
The code of a logical operator. It goes through three new blocks: one for the right operand, one
for the path without it, and one where the paths meet.
-/

namespace ClassLang.Graph

namespace Build

open Builder (Inv Step Stage Value Later Has)

variable {pend : List Nat} {dom dom' : Doms} {s s₁ s₂ s' t : Builder} {vars : List Var}

/-- The path without the right operand, in the block `n + 1`. The right operand is computed in the
block `n`, and the paths meet in the block `n + 2`. -/
structure Skips (f : Func) (p : Spot) (cond n : Nat) (first : Bool) (number : Int64) : Prop where
  ends : f.Ending p .branch [some cond] [if first then n else n + 1, if first then n + 1 else n]
  landing : f.Landing (n + 1)
  value : f.Holds ⟨n + 1, 0, p.count⟩
    ((⟨n + 1, 0, p.count⟩ : Spot).instr .constBool (some .bool) [] Pos.none number none)
  links : f.Links ⟨n + 1, 1, p.count + 1⟩ (n + 2)

-- changes of a graph are only known by what they do
attribute [local irreducible] Func.inserted Func.grown Func.without Func.linked Func.ended
  Func.branched Func.grows

/-- What the way to the right operand says about the finished graph. -/
theorem skips_of_shortcut {a n left : Nat} (p : Prop) [Decidable p] (number : Int64)
    (h : Ready vars pend dom s) (hn : s.func.blocks.size = n) (ha : s.current = some a)
    (hs₁ : s₁ = s.withFunc ((s.func.grows 3).branched a left (if p then n else n + 1)
      (if p then n + 1 else n)))
    (hrun₂ : (emitAt (n + 1) .constBool (some .bool) [] Pos.none number none).run s₁ =
      (s₁.func.instrs.size, s₂))
    (hrun' : (addEdge (n + 1) (n + 2)).run s₂ = ((), s'))
    (h₁ : Stage dom s dom' (List.range' n 3 ++ pend) s₁) (hkept : s'.func.Kept t.func) :
    Skips t.func s.spot left n (decide p) number ∧ s'.func.body n = [] ∧
      s'.func.instrs.size = s.func.instrs.size + 1 := by
  obtain ⟨k, hk⟩ : ∃ k, s.func.instrs.size = k := ⟨_, rfl⟩
  have hcount₁ : s₁.func.instrs.size = k := by
    rw [← hk, hs₁]
    simp
  obtain ⟨v, hv⟩ : ∃ v : Instr, v = (⟨n + 1, 0, k⟩ : Spot).instr .constBool (some .bool) []
      Pos.none number none := ⟨_, rfl⟩
  have hop : v.op ≠ .alloca := by simp [hv, Spot.instr]
  have hfunc₂ : s₂.func = s₁.func.inserted (n + 1) (s₁.func.values (n + 1)).length v := by
    rw [run_emitAt, hcount₁] at hrun₂
    rw [← (Prod.mk.inj hrun₂).2, hv]
    rfl
  have hfunc' : s'.func = s₂.func.linked (n + 1) (n + 2) := by
    rw [run_addEdge] at hrun'
    rw [← (Prod.mk.inj hrun').2]
    rfl
  have hsize₁ : s₁.func.blocks.size = n + 3 := by rw [hs₁]; simp [hn]
  have hsize₂ : s₂.func.blocks.size = n + 3 := by rw [hfunc₂]; simpa using hsize₁
  have hbody₁ : ∀ b, n ≤ b → s₁.func.body b = [] := by
    intro b hb
    rw [hs₁, Builder.func_withFunc, Func.body_branched, Func.body_grows, Func.body,
      Func.values_nil s.func b (by omega), List.filter_nil]
  have hbody' : ∀ b, n ≤ b → s'.func.body b = if n + 1 = b then [k] else [] := by
    intro b hb
    rw [hfunc', Func.body_linked, hfunc₂, Func.body_placed h₁.good.coded (by omega) hop, hcount₁,
      hbody₁ b hb]
    rfl
  -- what was made is still there in the finished graph
  have hopen₁ : s₁.func.Open (n + 1) := h₁.good.closed.opened (n + 1) (by simp [List.mem_range'_1])
  have hopen₂ : s₂.func.Open (n + 1) := by
    rw [hfunc₂]
    exact ⟨by simpa using hopen₁.kind, by simpa using hopen₁.succs, by simpa using hopen₁.controls⟩
  have hkept₂ : s₂.func.Kept t.func := by
    refine Func.Kept.trans ?_ hkept
    rw [hfunc']
    exact .linked (by omega) (by omega) hopen₂.not_ended
  have hkept₁ : s₁.func.Kept t.func := by
    refine Func.Kept.trans ?_ hkept₂
    rw [hfunc₂]
    exact .placed h₁.good.coded (by omega) hop hopen₁.not_ended
  have hvalue : t.func.Holds ⟨n + 1, 0, k⟩ v := by
    have hholds := Func.holds_placed h₁.good.coded (c := n + 1) (by omega) hop
    rw [hbody₁ _ (by omega), hcount₁, ← hfunc₂] at hholds
    exact hkept₂.holds hholds (by dsimp only; omega)
  have hlinks' : s'.func.Links ⟨n + 1, 1, k + 1⟩ (n + 2) := by
    have hlinks := Func.links_linked (f := s₂.func) (by omega) hopen₂ (n + 2) (k + 1)
    rw [← Func.body_linked _ _ (n + 2), ← hfunc', hbody' _ (by omega), if_pos rfl] at hlinks
    exact hlinks
  have halt := h.inv.lt_size ha
  have hspot : s.spot = ⟨a, (s.func.body a).length, k⟩ := hk ▸ Builder.spot_of_current ha
  have hends : s₁.func.Ending s.spot .branch [some left]
      [if p then n else n + 1, if p then n + 1 else n] := by
    have hends := Func.ending_branched (f := s.func.grows 3) (a := a)
      (by rw [Func.size_grows]; omega) ((h.inv.opened ha).grows 3) left (if p then n else n + 1)
      (if p then n + 1 else n) k
    rw [Func.body_grows] at hends
    rw [hs₁, hspot]
    exact hends
  refine ⟨⟨by simpa using hkept₁.ending hends, ⟨?_, by omega, fun i hi => ⟨v, ?_, ?_⟩⟩, ?_, ?_⟩,
    ?_, ?_⟩
  · exact (hkept.ending hlinks').known
  · rw [(hkept.ended (n + 1) hlinks'.known hlinks'.ended).2.2.2, hbody' _ (by omega), if_pos rfl] at hi
    obtain rfl : i = k := by simpa using hi
    exact hvalue.instr
  · simp [hv, Spot.instr]
  · rw [hspot, ← hv]
    exact hvalue
  · rw [hspot]
    exact hkept.ending hlinks'
  · rw [hbody' n (Nat.le_refl n), if_neg (by omega)]
  · rw [hfunc', Func.instrs_linked, hfunc₂]
    simp [Func.inserted, hcount₁, hk]

/-- Where the two paths meet, seen from the end of the right operand. -/
theorem merges_of_join {c merge short : Nat} {phi : Instr} (hs : Inv dom (merge :: pend) s)
    (hc : s.current = some c) (hphis : s.func.NoPhi merge) (hbody : s.func.body merge = [])
    (hpreds : s.func.preds merge = [short]) (hop : phi.op ≠ .alloca)
    (hlater : Later (((s.withFunc (s.func.linked c merge)).entered (some merge)).placed merge phi) t) :
    Later s t ∧ t.func.Links s.spot merge ∧ [short, c] <+: t.func.preds merge ∧
      t.func.Holds ⟨merge, 0, s.func.instrs.size⟩ phi ∧
      (((s.withFunc (s.func.linked c merge)).entered (some merge)).placed merge phi).spot =
        Spot.next ⟨merge, 0, s.func.instrs.size⟩ := by
  obtain ⟨s₁, hs₁⟩ : ∃ s₁, s₁ = (s.withFunc (s.func.linked c merge)).entered (some merge) := ⟨_, rfl⟩
  rw [← hs₁] at hlater ⊢
  have hfunc : s₁.func = s.func.linked c merge := by rw [hs₁]; rfl
  have hclt := hs.lt_size hc
  have hmergelt : merge < s.func.blocks.size :=
    hs.good.wired.known merge (hs.good.closed.order merge (by simp))
  have hne : c ≠ merge := by
    rintro rfl
    have hnodup := hs.good.closed.nodup
    rw [hc] at hnodup
    simp at hnodup
  have hcoded : s₁.func.Coded dom := by
    rw [hfunc]
    exact hs.good.coded.linked hmergelt hphis
  have hsize : merge < s₁.func.blocks.size := by rwa [hfunc, Func.size_linked]
  have hopen : s₁.func.Open merge := by
    rw [hfunc]
    exact (hs.good.closed.opened merge (by simp)).linked hclt hne _
  have hkept₁ : s₁.func.Kept t.func :=
    (Func.Kept.placed hcoded hsize hop hopen.not_ended).trans hlater.toKept
  have hlinks : s₁.func.Links s.spot merge := by
    rw [hfunc, Builder.spot_of_current hc]
    exact Func.links_linked hclt (hs.opened hc) _ _
  refine ⟨.left hkept₁ ?_ ?_ fun b hb => ?_, hkept₁.ending hlinks, ?_, ?_, ?_⟩
  · rw [hfunc]
    exact .linked hclt hmergelt (hs.opened hc).not_ended
  · rw [hs₁] at hlater
    exact hlater.slots
  · obtain rfl : c = b := Option.some.inj (hc.symm.trans hb)
    have hended := hlinks.ended
    rw [Builder.spot_of_current hc] at hended
    exact ⟨by rwa [hfunc, Func.size_linked], hended, by rw [hfunc, Func.body_linked]⟩
  · refine List.IsPrefix.trans ?_ (hkept₁.preds merge hsize)
    rw [hfunc, Func.preds_linked _ _ _ _ hmergelt, if_pos rfl, hpreds]
    exact List.prefix_refl _
  · have hholds := Func.holds_placed hcoded hsize (v := phi) hop
    rw [hfunc, Func.instrs_linked, Func.body_linked, hbody, ← hfunc] at hholds
    exact hlater.toKept.holds hholds (by simpa using hsize)
  · rw [Builder.spot_of_current (c := merge) (by rw [hs₁]; rfl), Builder.func_placed,
      Func.body_placed hcoded hsize hop, if_pos rfl, hfunc, Func.body_linked, hbody]
    simp [Func.inserted, Spot.next]

/-- The code of a logical operator. -/
theorem codes_logic {m : Build Nat} {left : Nat} {pos : Pos} {C : Builder → Spot → Nat → Spot → Prop}
    (p : Prop) [Decidable p] (number : Int64) (h : Ready vars pend dom s)
    (hleft : Value .bool left dom s) (hm : Computes vars m (Value .bool)) (hC : CodesAll vars m C) :
    Codes s (do
      let right ← newBlock
      let short ← newBlock
      let merge ← newBlock
      if p then branch left right short else branch left short right
      let shortValue ← emitAt short .constBool (some .bool) [] Pos.none number none
      addEdge short merge
      enter (some right)
      let i ← m
      Lower.join pos shortValue i merge) fun t q i r =>
        ∃ (side : Bool → Nat) (merge j : Nat) (short e : Spot), t.func.Forks q left side ∧
          short = ⟨side (!decide p), 0, q.count⟩ ∧
          t.func.Holds short (short.instr .constBool (some .bool) [] Pos.none number none) ∧
          C t ⟨side (decide p), 0, q.count + 1⟩ j e ∧
          t.func.Merges short.next e [q.count, j] pos ⟨merge, 0, e.count⟩ ∧
          i = e.count ∧ r = Spot.next ⟨merge, 0, e.count⟩ := by
  intro t ht hlater
  obtain ⟨_, hstep, _⟩ := makes_logic p number h hleft hm
  have hprev := hlater.step h.inv hstep
  obtain ⟨n, hn⟩ : ∃ n, s.func.blocks.size = n := ⟨_, rfl⟩
  obtain ⟨a, dom₁, s₁, s₂, s₃, ha, hs₁, hrun₂, hrun₃, -, h₁, h₃, hreach, hshort⟩ :=
    exists_shortcut p number h hleft hn
  have hready := Stage.ready h₃ hreach h.bound
  obtain ⟨j, s₄, dom₂, hrun₄, hstep₄, hcur₄, -⟩ := (hm _ _ _ hready).exists_run
  obtain ⟨c, hc⟩ := Option.isSome_iff_exists.1 hcur₄
  obtain ⟨phi, hphi⟩ : ∃ v : Instr, v = (⟨n + 2, 0, s₄.func.instrs.size⟩ : Spot).instr .phi
      (some .bool) [s.func.instrs.size, j] pos 0 none := ⟨_, rfl⟩
  have hcount₁ : s₁.func.instrs.size = s.func.instrs.size := by
    rw [hs₁]
    simp
  have hrun₅ : (Lower.join pos s₁.func.instrs.size j (n + 2)).run s₄ = (s₄.func.instrs.size,
      ((s₄.withFunc (s₄.func.linked c (n + 2))).entered (some (n + 2))).placed (n + 2) phi) := by
    unfold Lower.join
    rw [run_bind, run_jump hc, run_bind, run_enter, run_emitAt, hcount₁, hphi]
    simp only [Builder.func_entered, Builder.func_withFunc, Func.instrs_linked, Spot.instr]
  rw [run_logic p number ha hn hs₁ hrun₂ hrun₃ hrun₄ hrun₅] at hlater ⊢
  refine ⟨hprev, ?_⟩
  have hlt₃ : n + 2 < (s₃.entered (some n)).func.blocks.size :=
    h₃.good.wired.known _ hshort.order
  have hothers := hstep₄.frame.others (n + 2) hlt₃ (by simp)
  obtain ⟨hlater₄, hlinks, hpreds, hholds, hspot₅⟩ := merges_of_join hstep₄.inv hc
    (hshort.toTarget.frame hstep₄.frame hlt₃).phis
    (hothers.2.2.2.trans hshort.body) ((hstep₄.frame.preds _ hlt₃).trans hshort.preds)
    (by simp [hphi, Spot.instr]) hlater
  obtain ⟨hlater₃, hCt⟩ := hC _ _ _ hready t ht (by rw [hrun₄]; exact hlater₄)
  rw [hrun₄] at hCt
  obtain ⟨hskips, hbody₃, hcount₃⟩ := skips_of_shortcut p number h hn ha hs₁ hrun₂ hrun₃ h₁
    hlater₃.toKept
  have hright : t.func.Landing n := by
    refine hlater₃.landing (Nat.lt_of_le_of_lt (Nat.le_add_right n 2) hlt₃) ?_ hbody₃
    have := h.inv.lt_size ha
    omega
  have hspot₃ : (s₃.entered (some n)).spot = ⟨n, 0, s.spot.count + 1⟩ := by
    rw [Builder.spot_of_current rfl, Builder.func_entered, hbody₃, hcount₃]
    rfl
  have hspot₄ : s₄.spot.block = c := by rw [Builder.spot_of_current hc]
  obtain ⟨side, hside⟩ : ∃ side : Bool → Nat, ∀ b, side b = if b = decide p then n else n + 1 :=
    ⟨_, fun _ => rfl⟩
  have hsideRight : side (decide p) = n := by rw [hside, if_pos rfl]
  have hsideShort : side (!decide p) = n + 1 := by rw [hside, if_neg (by simp)]
  refine ⟨side, n + 2, j, ⟨n + 1, 0, s.spot.count⟩, s₄.spot, ⟨?_, fun b => ?_⟩, ?_, hskips.value, ?_,
    ⟨hskips.links, hlinks, ?_, ?_,
      Nat.lt_of_lt_of_le hlt₃ hlater₃.size, hshort.entry, rfl, ?_⟩, ?_, ?_⟩
  · have hends := hskips.ends
    rw [hside, hside]
    by_cases hp : p <;> simpa [hp] using hends
  · rw [hside]
    split
    · exact hright
    · exact hskips.landing
  · rw [hsideShort]
  · rw [hsideRight, ← hspot₃]
    exact hCt
  · rw [hspot₄]
    exact hpreds
  · rw [hspot₄]
    rcases hstep₄.fresh c hc with hsame | hle
    · obtain rfl : n = c := Option.some.inj hsame
      simp [Spot.next]
    · simp only [Spot.next]
      omega
  · subst hphi
    rw [Builder.spot_of_current hc]
    exact hholds
  · rw [Builder.spot_of_current hc]
  · rw [hspot₅, Builder.spot_of_current hc]

end Build

end ClassLang.Graph

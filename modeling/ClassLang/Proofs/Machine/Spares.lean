import ClassLang.Proofs.Code.Rules
import ClassLang.Proofs.Machine.Operands
import ClassLang.Proofs.Machine.Spot
import ClassLang.Proofs.Typing

/-!
What code leaves alone. The code of an expression or a statement changes only the values of its own
instructions and the slots of the variables that it declares or assigns to, as long as control has
not come to its end.
-/

namespace ClassLang

namespace Typed

mutual

/-- Whether a statement assigns to the variable that is declared at a place. -/
def Stmt.assigns (pos : Pos) : Stmt → Bool
  | .assign x _ =>
    match x.unparen with
    | .var _ v => v.pos = pos
    | _ => false
  | .block body => body.assigns pos
  | .ifElse _ body none => body.assigns pos
  | .ifElse _ body (some other) => body.assigns pos || other.assigns pos
  | .whileLoop _ body => body.assigns pos
  | .forLoop _ _ _ _ _ body => body.assigns pos
  | _ => false

@[inherit_doc Stmt.assigns]
def Block.assigns (pos : Pos) : Block → Bool
  | .mk stmts => assignsAny pos stmts

@[inherit_doc Stmt.assigns]
def assignsAny (pos : Pos) : List Stmt → Bool
  | [] => false
  | s :: rest => s.assigns pos || assignsAny pos rest

end

end Typed

namespace Graph

variable {ls : Layouts} {t : Builder}

mutual

/-- Control may get behind a statement that does not return on every path. -/
theorem StmtCode.behind {st : Typed.Stmt} {p : Spot} {r : Option Spot} :
    StmtCode ls t st p r → st.returns = false → ∃ e, r = some e ∧ p.count ≤ e.count
  | .empty, _ => ⟨_, rfl, Nat.le_refl _⟩
  | .expr code, _ => ⟨_, rfl, code.count_le.1⟩
  | .bind code _, _ => ⟨_, rfl, Nat.le_succ_of_le (Nat.le_succ_of_le code.count_le.1)⟩
  | .assignVar _ _ code _, _ => ⟨_, rfl, Nat.le_succ_of_le code.count_le.1⟩
  | .assignField _ object code _ _, _ =>
    ⟨_, rfl, Nat.le_succ_of_le (Nat.le_trans object.count_le.1 code.count_le.1)⟩
  | .block code, h => code.behind h
  | .ifThen test _ _ more _, _ => ⟨_, rfl, Nat.le_trans test.count_le.1 more⟩
  | .ifElse test _ body more alternative ends, h => by
    have hle := Nat.le_trans test.count_le.1 more
    rcases Bool.and_eq_false_iff.1 h with h | h
    · obtain ⟨e, he, -⟩ := body.behind h
      obtain ⟨d, n, rfl, -, -, hle'⟩ := ends e (Or.inl he)
      exact ⟨_, rfl, Nat.le_trans hle hle'⟩
    · obtain ⟨e, he, -⟩ := alternative.behind h
      obtain ⟨d, n, rfl, -, -, hle'⟩ := ends e (Or.inr he)
      exact ⟨_, rfl, Nat.le_trans hle hle'⟩
  | .whileLoop _ test _ _ more _, _ => ⟨_, rfl, Nat.le_trans test.count_le.1 more⟩
  | .forLoop start stop _ _ enters _ _ _ _ more _, _ => by
    subst enters
    have hle := Nat.le_trans start.count_le.1 stop.count_le.1
    exact ⟨_, rfl, Nat.le_trans hle (Nat.le_trans (Nat.le_add_right _ 4) more)⟩
  | .ret _, h | .retValue _ _, h => nomatch h

@[inherit_doc StmtCode.behind]
theorem StmtsCode.behind {b : List Typed.Stmt} {p : Spot} {r : Option Spot} :
    StmtsCode ls t b p r → Typed.returnsAny b = false → ∃ e, r = some e ∧ p.count ≤ e.count
  | .nil, _ => ⟨_, rfl, Nat.le_refl _⟩
  | .last code, h => code.behind (Bool.or_eq_false_iff.1 h).1
  | .cons code others, h => by
    obtain ⟨hfirst, hothers⟩ := Bool.or_eq_false_iff.1 h
    obtain ⟨q, hq, hle⟩ := code.behind hfirst
    obtain rfl := Option.some.inj hq
    obtain ⟨e, rfl, hle'⟩ := others.behind hothers
    exact ⟨e, rfl, Nat.le_trans hle hle'⟩

end

end Graph

namespace Machine

open ClassLang.Graph (Instr Op Spot)

/-- Slots are made before the code of a block. -/
theorem ne_alloca_of_holds {g : Graph.Func} {p : Spot} {v : Instr} (h : g.Holds p v) :
    v.op ≠ .alloca := by
  have hslot := (List.mem_filter.1 (List.mem_of_getElem? h.body)).2
  simpa [Graph.Func.isSlot_of_instr? h.instr] using hslot

/-! Code that spares a slot -/

/-- From `f` to `f'` the slot `c` and the values of the first `k` instructions have been kept. -/
structure Frame.Spares (c k : Nat) (f f' : Frame) : Prop extends f.Keeps k f' where
  slot : f'.slots.getD c none = f.slots.getD c none

namespace Frame.Spares

variable {c k i a : Nat} {f f' f'' : Frame} {x : Value} {todo : List Nat}

theorem refl (c k : Nat) (f : Frame) : f.Spares c k f := ⟨.refl k f, rfl⟩

theorem trans (h : f.Spares c k f') (h' : f'.Spares c k f'') : f.Spares c k f'' :=
  ⟨h.toKeeps.trans h'.toKeeps, h'.slot.trans h.slot⟩

theorem given (hk : k ≤ i) (f : Frame) (x : Value) (todo : List Nat) :
    f.Spares c k (f.given i x todo) :=
  ⟨(Keeps.given i f x todo).narrow hk, rfl⟩

theorem stored (ha : a ≠ c) (k : Nat) (f : Frame) (x : Value) : f.Spares c k (f.stored a x) where
  toKeeps := .stored k f a x
  slot := by
    simp only [Frame.stored]
    rw [Array.getD_eq_getD_getElem?, Array.getD_eq_getD_getElem?, Array.getElem?_setIfInBounds_ne ha]

end Frame.Spares

/-- In `n` changes at most, a frame that stands at `p` keeps the slot `c` and the values of the first
`k` instructions until it comes to the spot `r`. If there is no such spot, it keeps them for good. -/
def Walks (g : Graph.Func) (c k n : Nat) (p : Spot) (r : Option Spot) : Prop :=
  ∀ f f' : Frame, f.Spares c k f' → f'.Stands g p →
    f'.Until (f.Spares c k) (fun f' => f.Spares c k f' ∧ ∃ q ∈ r, f'.Stands g q) n

namespace Walks

variable {t : Graph.Builder} {g : Graph.Func} {c k m n : Nat} {p q : Spot} {r r' : Option Spot}
  {v : Instr} {side : Bool → Nat} {b i j cond : Nat} {args : List Nat} {pos : Pos}

theorem refl (p : Spot) : Walks g c k n p (some p) := by
  intro f f' hspares hf'
  cases n with
  | zero => trivial
  | succ n => exact Or.inl ⟨hspares, p, rfl, hf'⟩

theorem mono (h : Walks g c k n p r) (hle : m ≤ n) : Walks g c k m p r :=
  fun f f' hspares hf' => (h f f' hspares hf').mono hle

theorem trans (h : Walks g c k n p r) (h' : ∀ q ∈ r, Walks g c k n q r') : Walks g c k n p r' :=
  fun f f' hspares hf' => (h f f' hspares hf').trans fun f'' ⟨hspares', q, hq, hf''⟩ =>
    h' q hq f f'' hspares' hf''

theorem andThen (h : Walks g c k n p (some q)) (h' : Walks g c k n q r) : Walks g c k n p r :=
  h.trans fun _ hq => Option.some.inj hq ▸ h'

/-- An instruction that is no slot and does not store into the slot `c`. -/
theorem instr (hv : g.Holds p v) (hk : k ≤ p.count)
    (hstore : v.op = .store → v.args.head? ≠ some (some c)) : Walks g c k n p (some p.next) := by
  intro f f' hspares hf'
  cases n with
  | zero => trivial
  | succ n =>
      have hat := hf'.at_ hv
      refine Or.inr ⟨hspares, fun f'' hnext => ?_⟩
      suffices f'.Spares c k f'' ∧ f''.Stands g p.next from
        refl p.next f f'' (hspares.trans this.1) this.2
      have hsame : ∀ {i x todo}, f'.At i x todo → i = p.count ∧ x = v ∧
          todo = (g.body p.block).drop p.next.index := by
        intro i x todo hat'
        obtain ⟨rfl, rfl⟩ := List.cons.inj (Option.some.inj (hat'.todo.symm.trans hat.todo))
        exact ⟨rfl, Option.some.inj (hat'.instr.symm.trans hat.instr), rfl⟩
      cases hnext with
      | enter todo _ _ => simp [hat.todo] at todo
      | jump todo _ => simp [hat.todo] at todo
      | given hat' _ =>
          obtain ⟨rfl, rfl, rfl⟩ := hsame hat'
          exact ⟨.given hk f' _ _, hf'.given _ _⟩
      | newSlot hat' hop =>
          obtain ⟨-, rfl, -⟩ := hsame hat'
          exact absurd hop (ne_alloca_of_holds hv)
      | @store i a x todo y hat' hop target =>
          obtain ⟨rfl, rfl, rfl⟩ := hsame hat'
          have hne : a ≠ c := fun heq => hstore hop (heq ▸ target)
          exact ⟨(Frame.Spares.stored hne k f' y).trans (.given hk _ _ _),
            (hf'.stored a y).given _ _⟩

theorem other (hv : g.Holds p v) (hk : k ≤ p.count) (hop : v.op ≠ .store) :
    Walks g c k n p (some p.next) := instr hv hk fun h => absurd h hop

/-- At the end of a block control goes to one of the blocks that it leads to. -/
theorem ending {kind : Graph.BlockKind} {controls : List (Option Nat)} {succs : List Nat}
    (hp : g.Ending p kind controls succs)
    (h : ∀ b ∈ succs, ∀ f f' : Frame, f'.Stands g p → f.Spares c k (f'.jumped b) →
      (f'.jumped b).Until (f.Spares c k) (fun f' => f.Spares c k f' ∧ ∃ q ∈ r, f'.Stands g q) n) :
    Walks g c k (n + 1) p r := by
  intro f f' hspares hf'
  refine Or.inr ⟨hspares, fun f'' hnext => ?_⟩
  have hdone : f'.todo = some [] := by rw [hf'.todo, hp.last, List.drop_length]
  obtain ⟨x, hx, -, hsuccs, -⟩ := State.exists_block hf' hp.known
  rw [hp.succs] at hsuccs
  cases hnext with
  | enter todo _ _ => simp [hdone] at todo
  | @jump b _ goes =>
      have hb : b ∈ succs := by
        cases goes with
        | plain block _ succ =>
            obtain rfl := Option.some.inj (block.symm.trans hx)
            exact hsuccs ▸ List.mem_of_mem_head? succ
        | branch block _ _ succ =>
            obtain rfl := Option.some.inj (block.symm.trans hx)
            exact hsuccs ▸ List.mem_of_getElem? succ
      exact h b hb f f' hf' (hspares.trans ⟨⟨rfl, rfl, fun _ _ => rfl⟩, rfl⟩)
  | given hat _ | newSlot hat _ | store hat _ _ =>
      exact absurd (hdone.symm.trans hat.todo) (by simp)

/-- A block without `phi` is entered. -/
theorem landing (ht : t.Finished) (hland : t.func.Landing b) (h : Walks t.func c k n ⟨b, 0, m⟩ r)
    (f f' : Frame) (hf' : f'.Stands t.func p) (hspares : f.Spares c k (f'.jumped b)) :
    (f'.jumped b).Until (f.Spares c k)
      (fun f' => f.Spares c k f' ∧ ∃ q ∈ r, f'.Stands t.func q) n := by
  cases n with
  | zero => trivial
  | succ n =>
      refine Or.inr ⟨hspares, fun f'' hnext => ?_⟩
      cases hnext with
      | @enter x xs _ block edge =>
          have hvalues : x.values = t.func.body b := by
            have hblock : t.func.block? b = some x := hf'.fn ▸ block
            rw [← ht.values_eq hland.entry, Graph.Func.values, hblock]
            rfl
          have hcalm : ∀ i ∈ (t.func.body b).head?, ∃ v,
              (f'.jumped b).fn.instr? i = some v ∧ v.op ≠ .phi := by
            intro i hi
            obtain ⟨v, hv, hop⟩ := hland.calm i (List.mem_of_mem_head? hi)
            exact ⟨v, (congrArg (·.instr? i) hf'.fn).trans hv, hop⟩
          rw [hvalues, State.edgeValues_calm hcalm] at edge
          obtain rfl := Except.ok.inj edge
          refine h.mono (Nat.le_succ n) f _ (hspares.trans ⟨⟨rfl, rfl, fun _ _ => rfl⟩, rfl⟩)
            ⟨hf'.fn, rfl, ?_, hf'.values, hf'.slots⟩
          change some (x.values.filter fun i => (f'.fn.instr? i).map (·.op) ≠ some .phi) = _
          rw [hvalues, hf'.fn, State.filter_calm hland.calm]
          rfl
      | jump todo _ => cases todo
      | given hat _ | newSlot hat _ | store hat _ _ => cases hat.todo

theorem leads (ht : t.Finished) (hp : t.func.Leads p b) (h : Walks t.func c k n ⟨b, 0, m⟩ r) :
    Walks t.func c k n p r := by
  refine (ending hp.links fun b' hb' => ?_).mono (Nat.le_succ n)
  obtain rfl := List.mem_singleton.1 hb'
  exact landing ht hp.landing h

/-- A branch costs one of the changes. -/
theorem forks (ht : t.Finished) (hp : t.func.Forks p cond side)
    (h : ∀ x, ∃ m, Walks t.func c k n ⟨side x, 0, m⟩ r) : Walks t.func c k (n + 1) p r := by
  have hside : ∀ x, side x ∈ [side true, side false] → ∀ f f' : Frame, f'.Stands t.func p →
      f.Spares c k (f'.jumped (side x)) → (f'.jumped (side x)).Until (f.Spares c k)
        (fun f' => f.Spares c k f' ∧ ∃ q ∈ r, f'.Stands t.func q) n := by
    intro x _
    obtain ⟨m, hm⟩ := h x
    exact landing ht (hp.landing x) hm
  refine ending hp.ends fun b hb => ?_
  rcases List.mem_cons.1 hb with rfl | hb
  · exact hside true (by simp)
  · obtain rfl := List.mem_singleton.1 hb
    exact hside false (by simp)

/-- A block that starts with a `phi` is entered. -/
theorem merges (ht : t.Finished) {q' : Spot} {s : Spot} (hp : t.func.Links p s.block)
    (hs : t.func.Merges q q' args pos s) (hk : k ≤ s.count) :
    Walks t.func c k n p (some s.next) := by
  refine (ending hp fun b hb => ?_).mono (Nat.le_succ n)
  obtain rfl := List.mem_singleton.1 hb
  intro f f' hf' hspares
  cases n with
  | zero => trivial
  | succ n =>
      refine Or.inr ⟨hspares, fun f'' hnext => ?_⟩
      obtain ⟨l, hbody, hcalm⟩ := State.body_phi ht hs.entry hs.start hs.phi
      cases hnext with
      | @enter x xs _ block edge =>
          have hvalues : x.values = s.count :: l := by
            have hblock : t.func.block? s.block = some x := hf'.fn ▸ block
            rw [← hbody, ← ht.values_eq hs.entry, Graph.Func.values, hblock]
            rfl
          have hisPhi : ∀ i ∈ l, f'.fn.isPhi i = false := by
            intro i hi
            obtain ⟨v, hv, hop⟩ := hcalm i hi
            simp [Graph.Func.isPhi, hf'.fn, hv, hop]
          have hphi : f'.fn.isPhi s.count = true := by
            simp [Graph.Func.isPhi, hf'.fn, hs.phi.instr, Spot.instr]
          have hfst : xs.map Prod.fst = [s.count] := by
            rw [Frame.fst_edgeValues edge, hvalues]
            change List.takeWhile f'.fn.isPhi (s.count :: l) = _
            rw [List.takeWhile_cons_of_pos hphi]
            cases l with
            | nil => rfl
            | cons i l => rw [List.takeWhile_cons_of_neg (by simp [hisPhi])]
          obtain ⟨⟨_, y⟩, rfl, rfl⟩ := List.map_eq_singleton_iff.1 hfst
          have hkeeps : (f'.jumped s.block).Spares c k ((f'.jumped s.block).entered x [(s.count, y)]) :=
            ⟨⟨rfl, rfl, fun i hi => (Frame.Keeps.given s.count f' y []).values i
              (Nat.lt_of_lt_of_le hi hk)⟩, rfl⟩
          refine refl s.next f _ (hspares.trans hkeeps) ⟨hf'.fn, rfl, ?_, ?_, hf'.slots⟩
          · change some (x.values.filter fun i => (f'.fn.instr? i).map (·.op) ≠ some .phi) = _
            rw [hvalues, hf'.fn, List.filter_cons_of_neg (by simp [hs.phi.instr, Spot.instr]),
              State.filter_calm hcalm]
            simp [Spot.next, hs.start, hbody]
          · exact (Frame.size_entered _ _ _).trans hf'.values
      | jump todo _ => cases todo
      | given hat _ | newSlot hat _ | store hat _ _ => cases hat.todo

theorem constant {ty : Ty} {x : Constant} (hv : g.Holds p (p.constant ty pos x)) (hk : k ≤ p.count) :
    Walks g c k n p (some p.next) :=
  other hv hk (by cases x <;> simp [Spot.constant, Spot.instr])

/-- What is known after a round of a loop is known of the rounds before. -/
theorem loop (h : ∀ n, Walks g c k n p r → Walks g c k (n + 1) p r) (n : Nat) : Walks g c k n p r := by
  induction n with
  | zero => exact fun _ _ _ _ => trivial
  | succ n ih => exact h n ih

theorem callsMethod {ls : Layouts} {kind : CallKind} {w : Method} {name : String} {sig : Signature}
    {recv : Nat} (h : Graph.CallsMethod ls g kind w name sig pos recv args p q) (hk : k ≤ p.count) :
    Walks g c k n p (some q.next) := by
  cases h with
  | direct _ call => exact other call hk (by simp [Spot.instr])
  | table _ _ table entry call =>
      refine andThen (other table hk (by simp [Spot.instr])) ?_
      refine andThen (other entry (Nat.le_succ_of_le hk) (by simp [Spot.instr])) ?_
      exact other call (Nat.le_succ_of_le (Nat.le_succ_of_le hk)) (by simp [Spot.instr])

end Walks

/-! Expressions -/

theorem ne_store_of_ofUnary (op : UnaryOp) (ty : Ty) : Op.ofUnary op ty ≠ .store := by
  cases op <;> cases ty <;> simp [Op.ofUnary]

theorem ne_store_of_ofBinary (op : BinaryOp) (ty : Ty) : Op.ofBinary op ty ≠ .store := by
  cases op <;> cases ty <;> simp [Op.ofBinary, Op.ofInt, Op.ofFloat, Op.ofStr]

section

variable {t : Graph.Builder} {ls : Layouts} {c k : Nat}

mutual

/-- The code of an expression stores nothing into slots. -/
theorem walks_expr (ht : t.Finished) (n : Nat) {e : Typed.Expr} {p q : Spot} {i : Nat}
    (hk : k ≤ p.count) : Graph.ExprCode ls t e p i q → Walks t.func c k n p (some q)
  | .var _ load => .other load hk (by simp [Spot.instr])
  | .const instr | .literal instr | .unaryFolded instr | .binaryFolded instr
  | .parenFolded _ instr => .constant instr hk
  | .unary operand instr =>
    (walks_expr ht n hk operand).andThen
      (.other instr (Nat.le_trans hk operand.count_le.1) (ne_store_of_ofUnary _ _))
  | .binary _ left right instr => by
    have hk' := Nat.le_trans hk left.count_le.1
    exact (walks_expr ht n hk left).andThen ((walks_expr ht n hk' right).andThen
      (.other instr (Nat.le_trans hk' right.count_le.1) (ne_store_of_ofBinary _ _)))
  | @Graph.ExprCode.logic _ _ op _ _ _ _ _ _ _ _ _ _ _ _ left fork start shortValue right merges => by
    have hk' := Nat.le_trans hk left.count_le.1
    have hright := Nat.le_trans (Nat.le_succ_of_le hk') right.count_le.1
    refine (walks_expr ht n hk left).andThen ((Walks.forks ht fork fun x => ?_).mono (Nat.le_succ n))
    by_cases hx : x = decide (op = .and)
    · subst hx
      exact ⟨_, (walks_expr ht n (Nat.le_succ_of_le hk') right).andThen
        (.merges ht merges.second merges hright)⟩
    · obtain rfl := Bool.eq_not.2 hx
      rw [start] at shortValue merges
      exact ⟨_, (Walks.other shortValue hk' (by simp [Spot.instr])).andThen
        (.merges ht merges.first merges hright)⟩
  | .call operands instr =>
    (walks_exprs ht n hk operands).andThen
      (.other instr (Nat.le_trans hk operands.count_le.1) (by simp [Spot.instr]))
  | .invoke receiver operands call => by
    have hk' := Nat.le_trans hk receiver.count_le.1
    exact (walks_expr ht n hk receiver).andThen ((walks_exprs ht n hk' operands).andThen
      (.callsMethod call (Nat.le_trans hk' operands.count_le.1)))
  | .field object _ load =>
    (walks_expr ht n hk object).andThen
      (.other load (Nat.le_trans hk object.count_le.1) (by simp [Spot.instr]))
  | .init _ alloc fill dispatch =>
    (Walks.other alloc hk (by simp [Spot.instr])).andThen
      ((walks_fill ht n (Nat.le_succ_of_le hk) fill).andThen
        (.other dispatch (Nat.le_trans (Nat.le_succ_of_le hk) fill.count_le) (by simp [Spot.instr])))
  | .paren _ inner => walks_expr ht n hk inner

@[inherit_doc walks_expr]
theorem walks_exprs (ht : t.Finished) (n : Nat) {xs : List Typed.Expr} {p q : Spot} {is : List Nat}
    (hk : k ≤ p.count) : Graph.ExprsCode ls t xs p is q → Walks t.func c k n p (some q)
  | .nil => .refl p
  | .cons first others =>
    (walks_expr ht n hk first).andThen (walks_exprs ht n (Nat.le_trans hk first.count_le.1) others)

@[inherit_doc walks_expr]
theorem walks_fill (ht : t.Finished) (n : Nat) {l : ClassLayout} {obj : Nat}
    {elems : List (Ident × Typed.Expr)} {p q : Spot} (hk : k ≤ p.count) :
    Graph.FillCode ls t l obj elems p q → Walks t.func c k n p (some q)
  | .nil => .refl p
  | .cons _ first store others => by
    have hk' := Nat.le_trans hk first.count_le.1
    exact (walks_expr ht n hk first).andThen ((Walks.other store hk' (by simp [Spot.instr])).andThen
      (walks_fill ht n (Nat.le_succ_of_le hk') others))

end

/-! Statements -/

/-- Variables that are declared at different places have different slots. -/
theorem ne_of_lookup (ht : t.Finished) {p q : Pos} {a : Nat} (hne : p ≠ q)
    (ha : t.slots.lookup p = some a) (hc : t.slots.lookup q = some c) : a ≠ c := by
  rintro rfl
  obtain ⟨l, l', hl, -⟩ := List.lookup_eq_some_iff.1 ha
  obtain ⟨m, m', hm, -⟩ := List.lookup_eq_some_iff.1 hc
  have hp : (p, a) ∈ t.slots := by simp [hl]
  have hq : (q, a) ∈ t.slots := by simp [hm]
  exact hne (Prod.mk.inj (List.inj_on_of_nodup_map ht.apart hp hq rfl)).1

/-- A value is stored into a new slot. -/
theorem walks_bind {n i : Nat} {w : Var} {pos : Pos} {p : Spot} (hk : k ≤ p.count) (hck : c < k)
    (hbind : Graph.BindCode t w i pos p) : Walks t.func c k n p (some p.skip.next) := by
  have hstore : Walks t.func c k n p.skip (some p.skip.next) := by
    refine .instr hbind.store (Nat.le_succ_of_le hk) fun _ => ?_
    simp only [Spot.instr, List.map_cons, List.head?_cons, ne_eq, Option.some.injEq]
    omega
  exact fun f f' hspares hf' => hstore f f' hspares ⟨hf'.fn, hf'.block, hf'.todo, hf'.values, hf'.slots⟩

/-- A function that returns has no more to do. -/
theorem walks_quits {n : Nat} {p : Spot} {r : Option Spot} {i : Option Nat}
    (hquits : t.func.Quits p i) : Walks t.func c k n p r :=
  (Walks.ending hquits fun b hb => absurd hb (by simp)).mono (Nat.le_succ n)

/-- Where control gets behind a statement, if it does not return on every path. -/
abbrev onward (returns : Bool) (r : Option Spot) : Option Spot := bif returns then none else r

theorem mem_onward {returns : Bool} {r : Option Spot} {q : Spot} (h : q ∈ onward returns r) :
    returns = false ∧ q ∈ r := by
  cases returns with
  | true => cases h
  | false => exact ⟨rfl, h⟩

/-- One is added to another variable. -/
theorem walks_count (ht : t.Finished) {n slot b m : Nat} {p : Spot} {r : Option Spot} (hne : slot ≠ c)
    (hk : k ≤ p.count) (hcount : Graph.CountCode t.func slot p b)
    (h : Walks t.func c k n ⟨b, 0, m⟩ r) : Walks t.func c k n p r := by
  have hk₁ : k ≤ p.next.count := Nat.le_succ_of_le hk
  have hk₂ : k ≤ p.next.next.count := Nat.le_succ_of_le hk₁
  have hk₃ : k ≤ p.next.next.next.count := Nat.le_succ_of_le hk₂
  refine (Walks.other hcount.load hk (by simp [Spot.instr])).andThen ?_
  refine (Walks.other hcount.one hk₁ (by simp [Spot.instr])).andThen ?_
  refine (Walks.other hcount.add hk₂ (by simp [Spot.instr])).andThen ?_
  refine (Walks.instr hcount.store hk₃ fun _ => ?_).andThen (.leads ht hcount.leads h)
  simpa [Spot.instr] using hne

mutual

/-- The code of a statement that does not assign to a variable keeps the slot of the variable. -/
theorem walks_stmt (ht : t.Finished) (n : Nat) {v : Var} (hv : t.slots.lookup v.pos = some c)
    (hck : c < k) {st : Typed.Stmt} (hfree : st.assigns v.pos = false) {p : Spot} {r : Option Spot}
    (hk : k ≤ p.count) : Graph.StmtCode ls t st p r → Walks t.func c k n p (onward st.returns r)
  | .empty => .refl p
  | .expr code => walks_expr ht n hk code
  | .bind code bind =>
    (walks_expr ht n hk code).andThen (walks_bind (Nat.le_trans hk code.count_le.1) hck bind)
  | .assignVar target found code store => by
    refine (walks_expr ht n hk code).andThen (.instr store (Nat.le_trans hk code.count_le.1) fun _ => ?_)
    have hne := ne_of_lookup ht (by simpa [Typed.Stmt.assigns, target] using hfree) found hv
    simpa [Spot.instr] using hne
  | .assignField _ object code _ store => by
    have hk' := Nat.le_trans hk object.count_le.1
    exact (walks_expr ht n hk object).andThen ((walks_expr ht n hk' code).andThen
      (.other store (Nat.le_trans hk' code.count_le.1) (by simp [Spot.instr])))
  | .block code => walks_stmts ht n hv hck hfree hk code
  | .ifThen test fork body more ends => by
    have hk' := Nat.le_trans hk test.count_le.1
    refine (walks_expr ht n hk test).andThen ((Walks.forks ht fork fun x => ?_).mono (Nat.le_succ n))
    cases x with
    | true =>
        exact ⟨_, (walks_stmts ht n hv hck hfree (p := ⟨_, 0, _⟩) hk' body).trans fun e he =>
          .leads ht (ends e (mem_onward he).2).1 (.refl _)⟩
    | false => exact ⟨_, .refl _⟩
  | @Graph.StmtCode.ifElse _ _ _ b other _ _ _ _ _ _ _ out test fork body more alternative ends => by
    have hk' := Nat.le_trans hk test.count_le.1
    obtain ⟨hbody, hother⟩ := Bool.or_eq_false_iff.1 hfree
    change Walks t.func c k n p (onward (Typed.returnsAny b && other.returns) out)
    refine (walks_expr ht n hk test).andThen ((Walks.forks ht fork fun x => ?_).mono (Nat.le_succ n))
    cases x with
    | true =>
        refine ⟨_, (walks_stmts ht n hv hck hbody (p := ⟨_, 0, _⟩) hk' body).trans fun e he => ?_⟩
        obtain ⟨hreturns, he⟩ := mem_onward he
        obtain ⟨d, m, rfl, hleads, -⟩ := ends e (Or.inl he)
        rw [hreturns, Bool.false_and]
        exact .leads ht hleads (.refl _)
    | false =>
        refine ⟨_, (walks_stmt ht n hv hck hother (p := ⟨_, 0, _⟩) (Nat.le_trans hk' more)
          alternative).trans fun e he => ?_⟩
        obtain ⟨hreturns, he⟩ := mem_onward he
        obtain ⟨d, m, rfl, hleads, -⟩ := ends e (Or.inr he)
        rw [hreturns, Bool.and_false]
        exact .leads ht hleads (.refl _)
  | .whileLoop leads test fork body more ends => by
    refine .leads ht leads (Walks.loop (p := ⟨_, 0, p.count⟩) (fun n ih => ?_) n)
    refine (walks_expr ht (n + 1) (p := ⟨_, 0, _⟩) hk test).andThen (.forks ht fork fun x => ?_)
    cases x with
    | true =>
        exact ⟨_, (walks_stmts ht n hv hck hfree (p := ⟨_, 0, _⟩)
          (Nat.le_trans hk test.count_le.1) body).trans fun e he =>
            .leads ht (ends e (mem_onward he).2).1 ih⟩
    | false => exact ⟨_, .refl _⟩
  | @Graph.StmtCode.forLoop _ _ _ _ _ _ _ _ _ _ r _ _ _ header _ _ _ start stop bind leads enters load test
      fork body more ends => by
    have hq := Nat.le_trans hk start.count_le.1
    have hr := Nat.le_trans hq stop.count_le.1
    subst enters
    refine (walks_expr ht n hk start).andThen ((walks_expr ht n hq stop).andThen
      ((walks_bind hr hck bind).andThen (.leads ht leads
        (Walks.loop (p := ⟨header, 0, r.skip.next.count⟩) (fun n ih => ?_) n))))
    have hs : k ≤ Spot.count ⟨header, 0, r.skip.next.count⟩ :=
      Nat.le_succ_of_le (Nat.le_succ_of_le hr)
    refine (Walks.other load hs (by simp [Spot.instr])).andThen
      ((Walks.other test (Nat.le_succ_of_le hs) (by simp [Spot.instr])).andThen
        (.forks ht fork fun x => ?_))
    cases x with
    | true =>
        have hb := Nat.le_succ_of_le (Nat.le_succ_of_le hs)
        refine ⟨_, (walks_stmts ht n hv hck hfree (p := ⟨_, 0, _⟩) hb body).trans fun e he => ?_⟩
        obtain ⟨hreturns, he⟩ := mem_onward he
        obtain ⟨e', he', hle⟩ := body.behind hreturns
        obtain rfl := Option.some.inj (he'.symm.trans he)
        exact walks_count ht (Nat.ne_of_gt (Nat.lt_of_lt_of_le hck hr)) (Nat.le_trans hb hle)
          (ends _ he).1 ih
    | false => exact ⟨_, .refl _⟩
  | .ret quits => walks_quits quits
  | .retValue code quits => (walks_expr ht n hk code).andThen (walks_quits quits)

@[inherit_doc walks_stmt]
theorem walks_stmts (ht : t.Finished) (n : Nat) {v : Var} (hv : t.slots.lookup v.pos = some c)
    (hck : c < k) {b : List Typed.Stmt} (hfree : Typed.assignsAny v.pos b = false) {p : Spot}
    {r : Option Spot} (hk : k ≤ p.count) :
    Graph.StmtsCode ls t b p r → Walks t.func c k n p (onward (Typed.returnsAny b) r)
  | .nil => .refl p
  | @Graph.StmtsCode.last _ _ s rest _ code => by
    have hnone : ∀ returns, onward returns none = none := fun returns => by cases returns <;> rfl
    have hfirst := walks_stmt ht n hv hck (Bool.or_eq_false_iff.1 hfree).1 hk code
    rwa [hnone] at hfirst ⊢
  | @Graph.StmtsCode.cons _ _ s rest _ q r code others => by
    obtain ⟨hfree, hothers⟩ := Bool.or_eq_false_iff.1 hfree
    have hfirst := walks_stmt ht n hv hck hfree hk code
    change Walks t.func c k n p (onward (s.returns || Typed.returnsAny rest) r)
    cases hreturns : s.returns <;> rw [hreturns] at hfirst
    case true => exact hfirst
    case false =>
      obtain ⟨q', hq, hle⟩ := code.behind hreturns
      obtain rfl := Option.some.inj hq
      exact hfirst.andThen (walks_stmts ht n hv hck hothers (Nat.le_trans hk hle) others)

end

end

end Machine

end ClassLang

import ClassLang.Proofs.Code.Function
import ClassLang.Proofs.Graph.Unit
import ClassLang.Proofs.Machine.Operands
import ClassLang.Proofs.Machine.Replay
import ClassLang.Proofs.Machine.Spares
import ClassLang.Proofs.Machine.Yields

/-!
Loops that count. A loop tests its variable before each round, and adds one after it, which wraps
around. So the body is executed once for each number from one bound to the other, unless the last one
is the greatest integer: then no test ever fails.
-/

namespace ClassLang

namespace Typed

mutual

/-- The statements in a statement that construction comes to. -/
def Stmt.parts : Stmt → List Stmt
  | .block body => body.live
  | .ifElse _ body none => body.live
  | .ifElse _ body (some other) => body.live ++ other :: other.parts
  | .whileLoop _ body => body.live
  | .forLoop _ _ _ _ _ body => body.live
  | _ => []

/-- The statements in a block that construction comes to: those that are not behind one that
returns on every path. -/
def Block.live : Block → List Stmt
  | .mk stmts => liveAmong stmts

@[inherit_doc Block.live]
def liveAmong : List Stmt → List Stmt
  | [] => []
  | s :: rest => s :: s.parts ++ bif s.returns then [] else liveAmong rest

end

end Typed

namespace Graph

/-- Where the code of a loop that counts is: where both bounds have been computed, by the
instructions `first` and `last`, where the variable is tested, where the body starts and where it
ends, if it does not return on every path, and where control is behind the loop. -/
structure Loop where
  ready : Spot
  first : Nat
  last : Nat
  test : Spot
  body : Spot
  turn : Option Spot
  exit : Spot

/-- The code of the loop in which `v` counts from `low` to `high`. -/
structure Loop.Code (l : Loop) (ls : Layouts) (t : Builder) (pos : Pos) (v : Var)
    (low high : Typed.Expr) (b : List Typed.Stmt) (p : Spot) : Prop where
  bounds : ∃ q, ExprCode ls t low p l.first q ∧ ExprCode ls t high q l.last l.ready
  bind : BindCode t v l.first pos l.ready
  leads : t.func.Leads l.ready.skip.next l.test.block
  start : l.test = ⟨l.test.block, 0, l.ready.skip.next.count⟩
  load : t.func.Holds l.test (l.test.instr .load (some .int) [l.ready.count] Pos.none 0 none)
  compare : t.func.Holds l.test.next
    (l.test.next.instr .leq64 (some .bool) [l.test.count, l.last] Pos.none 0 none)
  fork : t.func.Forks l.test.next.next l.test.next.count fun x =>
    if x then l.body.block else l.exit.block
  inside : l.body = ⟨l.body.block, 0, l.test.next.next.count⟩
  outside : l.exit.index = 0
  stmts : ∃ r, StmtsCode ls t b l.body r ∧ l.turn = bif Typed.returnsAny b then none else r
  count : ∀ q ∈ l.turn, CountCode t.func l.ready.count q l.test.block

variable {ls : Layouts} {t : Builder}

theorem StmtCode.loop {pos at_ : Pos} {v : Var} {low high : Typed.Expr} {b : List Typed.Stmt} {p : Spot}
    {r : Option Spot} (h : StmtCode ls t (.forLoop pos v at_ low high (.mk b)) p r) :
    ∃ l : Loop, l.Code ls t pos v low high b p ∧ r = some l.exit := by
  cases h with
  | @forLoop _ _ _ _ _ _ _ q r s first last header n side e start stop bind leads enters load test fork
      body _ ends =>
      subst enters
      refine ⟨⟨r, first, last, _, _, bif Typed.returnsAny b then none else e, _⟩, ⟨⟨q, start, stop⟩, bind,
        leads, rfl, load, test, ?_, rfl, rfl, ⟨e, body, rfl⟩,
        fun x hx => (ends x (Machine.mem_onward hx).2).1⟩, rfl⟩
      have hside : side = fun x => if x then side true else side false := by
        funext x
        cases x <;> rfl
      rw [hside] at fork
      exact fork

mutual

/-- There is code of every statement that construction comes to. -/
theorem StmtCode.parts {st : Typed.Stmt} {p : Spot} {r : Option Spot} :
    StmtCode ls t st p r → ∀ s ∈ st.parts, ∃ p r, StmtCode ls t s p r
  | .block code, s, hs => code.live s hs
  | .ifThen _ _ body _ _, s, hs => body.live s hs
  | .ifElse _ _ body _ alternative _, s, hs => by
    rcases List.mem_append.1 hs with hs | hs
    · exact body.live s hs
    · rcases List.mem_cons.1 hs with rfl | hs
      · exact ⟨_, _, alternative⟩
      · exact alternative.parts s hs
  | .whileLoop _ _ _ body _ _, s, hs => body.live s hs
  | .forLoop _ _ _ _ _ _ _ _ body _ _, s, hs => body.live s hs
  | .empty, _, hs | .expr _, _, hs | .bind .., _, hs | .assignVar .., _, hs | .assignField .., _, hs
  | .ret _, _, hs | .retValue .., _, hs => nomatch hs

@[inherit_doc StmtCode.parts]
theorem StmtsCode.live {b : List Typed.Stmt} {p : Spot} {r : Option Spot} :
    StmtsCode ls t b p r → ∀ s ∈ Typed.liveAmong b, ∃ p r, StmtCode ls t s p r
  | @StmtsCode.last _ _ first rest _ code, s, hs => by
    rcases List.mem_cons.1 hs with rfl | hs
    · exact ⟨_, _, code⟩
    · have hreturns : first.returns = true := by
        by_contra hno
        obtain ⟨e, he, -⟩ := code.behind (by simpa using hno)
        cases he
      rw [hreturns] at hs
      exact code.parts s ((List.mem_append.1 hs).resolve_right (by simp))
  | @StmtsCode.cons _ _ first rest _ _ _ code others, s, hs => by
    rcases List.mem_cons.1 hs with rfl | hs
    · exact ⟨_, _, code⟩
    · rcases List.mem_append.1 hs with hs | hs
      · exact code.parts s hs
      · cases hreturns : first.returns <;> rw [hreturns] at hs
        case true => cases hs
        case false => exact others.live s hs

end

end Graph

namespace Machine

open ClassLang.Graph (Instr Op Spot Loop)

namespace State

/-- `n` steps lead from a state to another. -/
inductive Runs : Nat → State → State → Prop
  | zero {s : State} : Runs 0 s s
  | succ {n : Nat} {s t s' : State} (advance : s.advance = .next t) (more : Runs n t s') :
      Runs (n + 1) s s'

/-- The activation above `rest` has the frame `f` and stands at the spot `p` of the graph `g`. -/
structure Stands (s : State) (rest : List Frame) (f : Frame) (g : Graph.Func) (p : Spot) : Prop where
  stack : s.stack = f :: rest
  frame : f.Stands g p

variable {m n : Nat} {s t s' : State} {rest : List Frame} {f : Frame} {P : State → Prop}

namespace Runs

theorem trans (h : Runs m s t) (h' : Runs n t s') : Runs (m + n) s s' := by
  induction h with
  | zero => rwa [Nat.zero_add]
  | succ advance _ ih => exact Nat.succ_add _ _ ▸ .succ advance (ih h')

theorem of_next (h : s.Next t) (h' : Runs n t s') : Runs (n + 1) s s' := .succ (advance_of_next h) h'

theorem of_steps (h : s.Steps t) : ∃ n, Runs n s t := by
  induction h using Relation.ReflTransGen.head_induction_on with
  | refl => exact ⟨0, .zero⟩
  | head hnext _ ih =>
      obtain ⟨n, hn⟩ := ih
      exact ⟨n + 1, of_next hnext hn⟩

theorem reached {machine : ClassLang.Machine} {budget : Budget} {fn : Graph.Func} {args : List Value}
    (h : Runs n s t) (hs : Reached machine budget fn args s) : Reached machine budget fn args t := by
  induction h with
  | zero => exact hs
  | succ advance _ ih => exact ih (hs.step advance)

end Runs

theorem Gets.runs (h : s.Gets rest P s') : ∃ n, Runs n s s' := by
  induction h with
  | here => exact ⟨0, .zero⟩
  | next _ advance _ _ ih =>
      obtain ⟨n, hn⟩ := ih
      exact ⟨n + 1, .succ advance hn⟩

theorem Gets.holds (h : s.Gets rest P s') : P s' := by
  induction h with
  | here holds => exact holds
  | next _ _ _ _ ih => exact ih

/-- Whenever the activation above `rest` asks, it may go on. -/
def Unhindered (s : State) (rest : List Frame) : Prop :=
  ∀ n t f, Runs n s t → t.stack = f :: rest → f.todo = none → t.budget ≠ some 0

/-- Where host functions make no calls, nothing hinders a run without a budget. -/
theorem Quiet.unhindered (h : s.Quiet) (hbudget : s.budget = none) : s.Unhindered rest := by
  rintro n t f hruns - -
  suffices t.budget = none by simp [this]
  induction hruns with
  | zero => exact hbudget
  | succ advance _ ih =>
      have hprogress := h.progress (Move.of_step (h.step_of_advance advance))
      exact ih hprogress.quiet (by rw [hprogress.spent, hbudget]; rfl)

theorem Unhindered.later (h : s.Unhindered rest) (hruns : Runs n s t) : t.Unhindered rest :=
  fun _ u f hu => h _ u f (hruns.trans hu)

/-- An instruction that only has a value takes one step. -/
theorem Stands.give {g : Graph.Func} {p : Spot} {v : Instr} {x : Value} (h : s.Stands rest f g p)
    (hv : g.Holds p v) (haction : action f s.machine.heap v = .ok (.give x)) :
    ∃ f', s.Next (s.withTop f' rest) ∧ (s.withTop f' rest).Stands rest f' g p.next ∧
      f.Keeps p.count f' ∧ f'.slots = f.slots ∧ f'.value p.count = x :=
  ⟨_, next_give h.stack h.frame hv haction, ⟨rfl, h.frame.given x p.count⟩, .given p.count f x _, rfl,
    h.frame.value_given hv x _⟩

/-- From the end of a block a jump and a step lead to another. -/
theorem Stands.land {t : Graph.Builder} {p : Spot} {b : Nat} (ht : t.Finished)
    (h : s.Stands rest f t.func p) (hjump : s.Next (s.withTop (f.jumped b) rest))
    (hland : t.func.Landing b) (hfree : s.Unhindered rest) (n : Nat) :
    ∃ u f', Runs 2 s u ∧ u.Stands rest f' t.func ⟨b, 0, n⟩ ∧ (∀ m, f.Keeps m f') ∧
      f'.slots = f.slots := by
  have hbudget := hfree 1 _ _ (.of_next hjump .zero) rfl rfl
  obtain ⟨f', hnext, hf', hkeeps, hslots⟩ :=
    next_land (s := s.withTop (f.jumped b) rest) ht rfl h.frame hland hbudget n
  exact ⟨_, f', .of_next hjump (.of_next hnext .zero), ⟨rfl, hf'⟩, hkeeps, hslots⟩

/-- The activation above `rest` has come to the end of the body of a loop. -/
def Turns (l : Loop) (g : Graph.Func) (rest : List Frame) (s : State) : Prop :=
  ∃ f, ∃ q ∈ l.turn, s.Stands rest f g q

end State

open State (Runs)

/-- From `s`, where a loop tests its variable, the body has been executed once for each number of the
list, and `s'` is where the variable is tested next. The numbers are what the variable holds where the
body starts. -/
inductive Rounds (l : Loop) (g : Graph.Func) (rest : List Frame) : State → List Int64 → State → Prop
  | none {s : State} : Rounds l g rest s [] s
  | round {s u e s' s'' : State} {f f' : Frame} {i : Int64} {is : List Int64} (test : Runs 4 s u)
      (starts : u.Stands rest f g l.body)
      (value : f.slots.getD l.ready.count none = some (.int i))
      (body : u.Gets rest (State.Turns l g rest) e) (turns : Runs 6 e s')
      (tests : s'.Stands rest f' g l.test) (more : Rounds l g rest s' is s'') :
      Rounds l g rest s (i :: is) s''

section

variable {l : Loop} {ls : Layouts} {t : Graph.Builder} {pos : Pos} {v : Var} {low high : Typed.Expr}
  {b : List Typed.Stmt} {p : Spot} {s : State} {rest : List Frame} {f : Frame} {i last : Int64}

/-- The loop is about to test its variable, which holds `i`; the last number is `last`. -/
structure Tests (l : Loop) (g : Graph.Func) (rest : List Frame) (i last : Int64) (s : State)
    (f : Frame) (p : Spot) : Prop extends s.Stands rest f g p where
  value : f.slots.getD l.ready.count none = some (.int i)
  last : f.value l.last = .int last

/-- The numbers of the instructions of a loop. -/
theorem last_lt (hcode : l.Code ls t pos v low high b p) :
    l.last < l.ready.count ∧ l.ready.count + 2 = l.test.count ∧ l.body.count = l.test.count + 2 := by
  obtain ⟨q, -, hlast⟩ := hcode.bounds
  refine ⟨hlast.count_le.2, ?_, ?_⟩
  · rw [hcode.start]
    rfl
  · rw [hcode.inside]
    rfl

/-- The variable is tested. -/
theorem test_runs (ht : t.Finished) (hcode : l.Code ls t pos v low high b p)
    (hs : Tests l t.func rest i last s f l.test) (hfree : s.Unhindered rest) :
    ∃ u f', Runs 4 s u ∧
      Tests l t.func rest i last u f' (if i ≤ last then l.body else l.exit) := by
  obtain ⟨hlt, hcount, -⟩ := last_lt hcode
  obtain ⟨f₁, hnext₁, hs₁, hkeeps₁, hslots₁, hi⟩ := hs.toStands.give hcode.load (action_load hs.value)
  have hlast₁ : f₁.value l.last = .int last := (hkeeps₁.values _ (by omega)).trans hs.last
  obtain ⟨f₂, hnext₂, hs₂, hkeeps₂, hslots₂, hx⟩ := hs₁.give hcode.compare (x := .bool (i ≤ last))
    (action_binary (show _ = Op.ofBinary .leq .int from rfl) rfl (by rw [hi, hlast₁]; rfl))
  have hlast₂ : f₂.value l.last = .int last :=
    (hkeeps₂.values _ (by simp only [Spot.next]; omega)).trans hlast₁
  have hruns : Runs 2 s _ := .of_next hnext₁ (.of_next hnext₂ .zero)
  obtain ⟨u, f₄, hruns', hu, hkeeps, hslots⟩ := hs₂.land ht
    (State.next_fork hs₂.stack hs₂.frame hcode.fork hx) (hcode.fork.landing _) (hfree.later hruns)
    l.body.count
  refine ⟨u, f₄, hruns.trans hruns', ⟨⟨hu.stack, ?_⟩, ?_, ?_⟩⟩
  · have hf := hu.frame
    by_cases hle : i ≤ last
    · rw [if_pos hle, hcode.inside]
      simp only [hle, decide_true, if_true] at hf
      exact ⟨hf.fn, hf.block, hf.todo, hf.values, hf.slots⟩
    · rw [if_neg hle]
      simp only [hle, decide_false, Bool.false_eq_true, if_false] at hf
      exact ⟨hf.fn, hf.block, hcode.outside ▸ hf.todo, hf.values, hf.slots⟩
  · rw [hslots, hslots₂, hslots₁]
    exact hs.value
  · exact ((hkeeps (l.last + 1)).values _ (Nat.lt_succ_self _)).trans hlast₂

/-- A number is stored into the variable, which is tested next. -/
theorem store_runs (ht : t.Finished) (hcode : l.Code ls t pos v low high b p) {q : Spot} {a : Nat}
    {x : Value} {at_ : Pos} (hs : s.Stands rest f t.func q)
    (hstore : t.func.Holds q (q.instr .store none [l.ready.count, a] at_ 0 none))
    (hleads : t.func.Leads q.next l.test.block) (hcount : l.last < q.count)
    (hx : f.slots.getD l.ready.count none = some x) (hi : f.value a = .int i)
    (hlast : f.value l.last = .int last) (hfree : s.Unhindered rest) :
    ∃ u f', Runs 3 s u ∧ Tests l t.func rest i last u f' l.test := by
  have haction : action f s.machine.heap (q.instr .store none [l.ready.count, a] at_ 0 none) =
      .ok (.store l.ready.count (.int i)) := by
    simp [action, Spot.instr, Frame.operand, Frame.slot, hx, hi, Bind.bind, Except.bind, Pure.pure,
      Except.pure]
  have hnext := State.next_store hs.stack hs.frame hstore haction
  obtain ⟨f₁, hf₁⟩ : ∃ f₁, f₁ = (f.stored l.ready.count (.int i)).given q.count .nil
    ((t.func.body q.block).drop q.next.index) := ⟨_, rfl⟩
  rw [← hf₁] at hnext
  have hs₁ : (s.withTop f₁ rest).Stands rest f₁ t.func q.next :=
    ⟨rfl, hf₁ ▸ (hs.frame.stored _ _).given _ _⟩
  have hruns : Runs 1 s (s.withTop f₁ rest) := .of_next hnext .zero
  obtain ⟨u, f', hruns', hu, hkeeps, hslots⟩ := hs₁.land ht
    (State.next_link hs₁.stack hs₁.frame hleads.links) hleads.landing (hfree.later hruns)
    l.ready.skip.next.count
  refine ⟨u, f', hruns.trans hruns', ⟨⟨hu.stack, ?_⟩, ?_, ?_⟩⟩
  · rw [hcode.start]
    exact hu.frame
  · have hsize : l.ready.count < f.slots.size := by
      rw [hs.frame.slots]
      exact Nat.lt_of_succ_lt (Graph.Func.instr?_lt hcode.bind.store.instr)
    rw [hslots, hf₁]
    simp [Frame.given, Frame.stored, Array.getD_eq_getD_getElem?, hsize]
  · rw [(hkeeps (l.last + 1)).values _ (Nat.lt_succ_self _), hf₁,
      (Frame.Keeps.given _ _ _ _).values _ hcount]
    exact hlast

/-- One is added to the variable. -/
theorem turn_runs (ht : t.Finished) (hcode : l.Code ls t pos v low high b p) {q : Spot}
    (hq : q ∈ l.turn) (hs : Tests l t.func rest i last s f q) (hfree : s.Unhindered rest)
    (hle : l.body.count ≤ q.count) :
    ∃ u f', Runs 6 s u ∧ Tests l t.func rest (i + 1) last u f' l.test := by
  obtain ⟨hlt, hcount, hbody⟩ := last_lt hcode
  have hcode' := hcode.count q hq
  obtain ⟨f₁, hnext₁, hs₁, hkeeps₁, hslots₁, hi₁⟩ := hs.toStands.give hcode'.load (action_load hs.value)
  obtain ⟨f₂, hnext₂, hs₂, hkeeps₂, hslots₂, hone⟩ := hs₁.give hcode'.one (x := .int 1) rfl
  have hi₂ : f₂.value q.count = .int i :=
    (hkeeps₂.values _ (by simp only [Spot.next]; omega)).trans hi₁
  obtain ⟨f₃, hnext₃, hs₃, hkeeps₃, hslots₃, hsum⟩ := hs₂.give hcode'.add (x := .int (i + 1))
    (action_binary (show _ = Op.ofBinary .add .int from rfl) rfl (by rw [hi₂, hone]; rfl))
  have hlast₃ : f₃.value l.last = .int last := by
    rw [hkeeps₃.values _ (by simp only [Spot.next]; omega),
      hkeeps₂.values _ (by simp only [Spot.next]; omega), hkeeps₁.values _ (by omega)]
    exact hs.last
  have hslot : f₃.slots.getD l.ready.count none = some (.int i) := by
    rw [hslots₃, hslots₂, hslots₁]
    exact hs.value
  have hruns : Runs 3 s _ := .of_next hnext₁ (.of_next hnext₂ (.of_next hnext₃ .zero))
  obtain ⟨u, f', hruns', hu⟩ := store_runs ht hcode hs₃ hcode'.store hcode'.leads
    (by simp only [Spot.next]; omega) hslot hsum hlast₃ (hfree.later hruns)
  exact ⟨u, f', hruns.trans hruns', hu⟩

/-- The body keeps the variable and the last number. -/
theorem body_keeps (ht : t.Finished) (hcode : l.Code ls t pos v low high b p)
    (hfree : Typed.assignsAny v.pos b = false) (hs : Tests l t.func rest i last s f l.body) {e : State}
    (he : s.Gets rest (State.Turns l t.func rest) e) :
    ∃ f', ∃ q ∈ l.turn, l.body.count ≤ q.count ∧ Tests l t.func rest i last e f' q := by
  obtain ⟨hlt, hcount, hbody⟩ := last_lt hcode
  obtain ⟨r, hstmts, hturn⟩ := hcode.stmts
  obtain ⟨f', q, hq, he'⟩ := he.holds
  have hq' := hq
  rw [hturn] at hq'
  obtain ⟨hreturns, hr⟩ := mem_onward hq'
  obtain ⟨q', hq', hle⟩ := hstmts.behind hreturns
  obtain rfl := Option.some.inj (hq'.symm.trans hr)
  have hwalks := fun n => walks_stmts (c := l.ready.count) ht n hcode.bind.slot (by omega) hfree
    (Nat.le_refl _) hstmts f f (.refl _ _ f) hs.frame
  have hspares : f.Spares l.ready.count l.body.count f' := by
    have hgets := he.until (fun u g hu ⟨_, q, hq, hg⟩ => ⟨g, q, hturn ▸ hq, hu, hg⟩)
      (show s.stack = [] ++ f :: rest from hs.stack) (fun h => absurd rfl h) hwalks he'.stack
    exact hgets.elim id And.left
  exact ⟨f', q', hq, hle, he', hspares.slot.trans hs.value,
    (hspares.values _ (by omega)).trans hs.last⟩

/-- Each body that is started gets to its end. -/
def Loop.Completes (l : Loop) (g : Graph.Func) (rest : List Frame) (s : State) : Prop :=
  ∀ is s' u f, Rounds l g rest s is s' → Runs 4 s' u → u.Stands rest f g l.body →
    ∃ e, u.Gets rest (State.Turns l g rest) e

/-- The bounds of the loop have been computed: they are `first` and `last`. -/
structure Bounded (l : Loop) (g : Graph.Func) (rest : List Frame) (first last : Int64) (s : State)
    (f : Frame) : Prop extends s.Stands rest f g l.ready where
  first : f.value l.first = .int first
  last : f.value l.last = .int last

/-- The first number is stored into the variable. -/
theorem ready_runs (ht : t.Finished) (hcode : l.Code ls t pos v low high b p)
    (hs : Bounded l t.func rest i last s f) (hslot : f.Allocated l.ready.count)
    (hfree : s.Unhindered rest) :
    ∃ u f', Runs 3 s u ∧ Tests l t.func rest i last u f' l.test := by
  have hf := hs.frame
  obtain ⟨x, hx⟩ := Option.isSome_iff_exists.1 hslot
  exact store_runs (q := l.ready.skip) ht hcode
    ⟨hs.stack, hf.fn, hf.block, hf.todo, hf.values, hf.slots⟩ hcode.bind.store hcode.leads
    (Nat.lt_succ_of_lt (last_lt hcode).1) hx hs.first hs.last hfree

/-- A round of the loop. -/
theorem round_runs (ht : t.Finished) (hcode : l.Code ls t pos v low high b p)
    (hfree : Typed.assignsAny v.pos b = false) (hs : Tests l t.func rest i last s f l.test)
    (hclear : s.Unhindered rest) (hends : Loop.Completes l t.func rest s) (hle : i ≤ last) :
    ∃ s' f', (∀ is s'', Rounds l t.func rest s' is s'' → Rounds l t.func rest s (i :: is) s'') ∧
      Tests l t.func rest (i + 1) last s' f' l.test ∧ s'.Unhindered rest ∧
      Loop.Completes l t.func rest s' := by
  obtain ⟨u, g, hruns, hu⟩ := test_runs ht hcode hs hclear
  rw [if_pos hle] at hu
  obtain ⟨e, he⟩ := hends [] s u g .none hruns hu.toStands
  obtain ⟨g', q, hq, hcount, he'⟩ := body_keeps ht hcode hfree hu he
  obtain ⟨n, hbody⟩ := he.runs
  have hclear' := hclear.later (hruns.trans hbody)
  obtain ⟨s', f', hruns', hs'⟩ := turn_runs ht hcode hq he' hclear' hcount
  have hround : ∀ is s'', Rounds l t.func rest s' is s'' → Rounds l t.func rest s (i :: is) s'' :=
    fun _ _ => .round hruns hu.toStands hu.value he hruns' hs'.toStands
  exact ⟨s', f', hround, hs', hclear'.later hruns', fun is s'' u f hrounds =>
    hends (i :: is) s'' u f (hround is s'' hrounds)⟩

/-- Up to a last number that is not the greatest integer, a loop counts and ends. -/
theorem rounds_end (ht : t.Finished) (hcode : l.Code ls t pos v low high b p)
    (hfree : Typed.assignsAny v.pos b = false) (hs : Tests l t.func rest i last s f l.test)
    (hclear : s.Unhindered rest) (hends : Loop.Completes l t.func rest s)
    (hlast : last ≠ Int64.maxValue) :
    ∃ is s' z f', Rounds l t.func rest s is s' ∧ Runs 4 s' z ∧ z.Stands rest f' t.func l.exit ∧
      is.map Int64.toInt =
        (List.range (last.toInt - i.toInt + 1).toNat).map fun k : Nat => i.toInt + k := by
  obtain ⟨n, hn⟩ : ∃ n, (last.toInt - i.toInt + 1).toNat = n := ⟨_, rfl⟩
  rw [hn]
  induction n generalizing s f i with
  | zero =>
      obtain ⟨z, f', hruns, hz⟩ := test_runs ht hcode hs hclear
      have hno : ¬ i ≤ last := by
        rw [Int64.le_iff_toInt_le]
        omega
      rw [if_neg hno] at hz
      exact ⟨[], s, z, f', .none, hruns, hz.toStands, rfl⟩
  | succ n ih =>
      have hle : i ≤ last := by
        rw [Int64.le_iff_toInt_le]
        omega
      obtain ⟨s', f', hround, hs', hclear', hends'⟩ := round_runs ht hcode hfree hs hclear hends hle
      have hnext : (i + 1).toInt = i.toInt + 1 := by
        have hlt : last.toInt ≠ Int64.maxValue.toInt := fun h => hlast (Int64.toInt_inj.1 h)
        have hmax := Int64.toInt_le last
        have hmin := Int64.le_toInt i
        rw [Int64.toInt_maxValue] at hlt hmax
        rw [Int64.le_iff_toInt_le] at hle
        rw [Int64.toInt_add]
        exact Int.bmod_eq_of_le (by simp only [Int64.toInt_one]; omega)
          (by simp only [Int64.toInt_one]; omega)
      obtain ⟨is, s'', z, f'', hrounds, hruns, hz, his⟩ := ih hs' hclear' hends' (by omega)
      refine ⟨i :: is, s'', z, f'', hround is s'' hrounds, hruns, hz, ?_⟩
      rw [List.map_cons, his, List.range_succ_eq_map, List.map_cons, List.map_map, hnext]
      refine congrArg₂ List.cons (by simp) (List.map_congr_left fun k _ => ?_)
      simp only [Function.comp_apply, Nat.succ_eq_add_one, Int.natCast_add, Int.natCast_one]
      omega

/-- Up to the greatest integer a loop goes on for ever. -/
theorem rounds_go_on (ht : t.Finished) (hcode : l.Code ls t pos v low high b p)
    (hfree : Typed.assignsAny v.pos b = false)
    (hs : Tests l t.func rest i Int64.maxValue s f l.test) (hclear : s.Unhindered rest)
    (hends : Loop.Completes l t.func rest s) (n : Nat) :
    ∃ s', Rounds l t.func rest s ((List.range n).map fun k => i + Int64.ofNat k) s' := by
  induction n generalizing s f i with
  | zero => exact ⟨s, .none⟩
  | succ n ih =>
      obtain ⟨s', f', hround, hs', hclear', hends'⟩ :=
        round_runs ht hcode hfree hs hclear hends (Int64.le_maxValue i)
      obtain ⟨s'', hrounds⟩ := ih hs' hclear' hends'
      refine ⟨s'', ?_⟩
      have hlist : (List.range (n + 1)).map (fun k => i + Int64.ofNat k) =
          i :: (List.range n).map fun k => i + 1 + Int64.ofNat k := by
        rw [List.range_succ_eq_map, List.map_cons, List.map_map]
        refine congrArg₂ List.cons (by simp) (List.map_congr_left fun k _ => ?_)
        rw [Function.comp_apply, Nat.succ_eq_add_one, Nat.add_comm, Int64.ofNat_add, Int64.add_assoc]
        rfl
      rw [hlist]
      exact hround _ s'' hrounds

/-- Where the bounds have been computed, the variable has its slot. -/
theorem slot_allocated {m : ClassLang.Machine} {budget : Budget} {fn : Graph.Func} {args : List Value}
    {e : Nat} (hreached : Reached m budget fn args s) (hv : t.func.Verified e)
    (hcode : l.Code ls t pos v low high b p) (hs : s.Stands rest f t.func l.ready) :
    f.Allocated l.ready.count := by
  have hf := hs.frame
  have hat := Frame.Stands.at_ (p := l.ready.skip) ⟨hf.fn, hf.block, hf.todo, hf.values, hf.slots⟩
    hcode.bind.store
  have hready := hreached.ready f (hs.stack ▸ List.mem_cons_self) e (hf.fn.symm ▸ hv)
  obtain ⟨x, hx, -, hslot⟩ := hready.operands (hf.fn.symm ▸ hv) hat.todo
  obtain rfl := Option.some.inj (hat.instr.symm.trans hx.instr)
  obtain ⟨a, ha, hallocated⟩ := hslot (Or.inr rfl)
  obtain rfl := Option.some.inj (Option.some.inj ha)
  exact hallocated

end

end Machine

namespace Graph.Func

/-- A graph that obeys the rules of construction lists each of its instructions once. -/
theorem Good.listed {f : Graph.Func} {dom : Graph.Doms} (h : f.Good dom []) : f.Listed where
  blocks := h.wired.known
  instrs b _ i hi := by
    obtain ⟨v, hv, -⟩ := (h.coded.placed b i).1 hi
    exact instr?_lt hv
  once := h.coded.nodup_flatMap h.wired.nodup
  controls b _ c hc := by
    obtain ⟨v, hv, -⟩ := h.closed.controls b c hc
    exact List.mem_flatMap.2 ⟨v.block, h.coded.home c v hv, (h.coded.placed _ c).2 ⟨v, hv, rfl⟩⟩

/-- The code of a function of a well typed unit. -/
theorem exists_code {u : Typed.File} (hu : u.Ok) {g : Typed.Func} (hg : g ∈ u.bodies)
    {body : Typed.Block} (hbody : g.body = some body) :
    let t := lowered (Layouts.build u.table) g body
    t.Finished ∧ FuncCode (Layouts.build u.table) t g body ∧ ∃ dom, t.func.Good dom [] := by
  intro t
  obtain ⟨Δ, hok, hfree⟩ := exists_context hu hg
  obtain ⟨stmts⟩ := body
  have hsound : (u.context Δ).Sound := ⟨hu.sound.table, hu.sound.funcs⟩
  obtain ⟨ht, hcode⟩ := code_lowered hsound hok hbody hfree (hu.binders g hg)
  obtain ⟨dom, hgood, -⟩ := lowered_good hu hg hbody
  exact ⟨ht, hcode, dom, hgood⟩

end Graph.Func

open ClassLang.Graph (Loop)
open ClassLang.Machine (State Frame Reached Bounded Rounds)

/-- Loops count. Each loop that counts in a function of an accepted unit, unless construction leaves
it out, is lowered; wherever its code stands, a run that has computed its bounds, may go on, and gets
to the end of each body that it starts, stores the first number in three steps. If the body assigns
nothing to the variable, then it is executed once for each number from the first to the last, and
control is behind the loop, provided that the last number is not the greatest integer. Otherwise the
variable wraps around, and the loop goes on for ever. -/
theorem counting_loops_exact (name : String) (bytes : List UInt8) {limit : Option Nat}
    {u : Typed.File} (hparse : (parseFile name bytes).reports = []) (hlimit : limit ≠ some 0)
    (hcheck : (parseFile name bytes).file.check limit = .ok u) {g : Typed.Func} (hg : g ∈ u.bodies)
    {body : Typed.Block} (hbody : g.body = some body) {pos at_ : Pos} {v : Var}
    {low high : Typed.Expr} {b : List Typed.Stmt}
    (hloop : .forLoop pos v at_ low high (.mk b) ∈ body.live) :
    let ls := Layouts.build u.table
    let t := Graph.Func.lowered ls g body
    t.func ∈ (Graph.Program.ofTyped u ls).funcs ∧
    (∃ (l : Loop) (p : Graph.Spot), l.Code ls t pos v low high b p) ∧
    ∀ (l : Loop) p, l.Code ls t pos v low high b p → Typed.assignsAny v.pos b = false →
      ∀ m budget fn args s, Reached m budget fn args s →
      ∀ rest f first last, Bounded l t.func rest first last s f → s.Unhindered rest →
      (∀ s₀, State.Runs 3 s s₀ → Machine.Loop.Completes l t.func rest s₀) →
      ∃ s₀, State.Runs 3 s s₀ ∧
        if last = Int64.maxValue then
          ∀ n, ∃ s', Rounds l t.func rest s₀ ((List.range n).map fun k => first + Int64.ofNat k) s'
        else
          ∃ is s' z f', Rounds l t.func rest s₀ is s' ∧ State.Runs 4 s' z ∧
            z.Stands rest f' t.func l.exit ∧ is.map Int64.toInt =
              (List.range (last.toInt - first.toInt + 1).toNat).map fun k : Nat => first.toInt + k := by
  intro ls t
  have hu := checked_ok hparse hcheck hlimit
  obtain ⟨ht, ⟨-, hstmts, -⟩, dom, hgood⟩ := Graph.Func.exists_code hu hg hbody
  refine ⟨List.mem_filterMap.2 ⟨g, hg, by rw [hbody]; rfl⟩, ?_, ?_⟩
  · obtain ⟨stmts⟩ := body
    obtain ⟨p, r, hcode⟩ := hstmts.live _ hloop
    obtain ⟨l, hl, -⟩ := hcode.loop
    exact ⟨l, p, hl⟩
  · intro l p hcode hassigns m budget fn args s hreached rest f first last hs hfree hends
    obtain ⟨e, hv⟩ := Graph.Func.verified hgood.violations hgood.listed
    obtain ⟨s₀, f₀, hruns, hs₀⟩ := Machine.ready_runs ht hcode hs
      (Machine.slot_allocated hreached hv hcode hs.toStands) hfree
    refine ⟨s₀, hruns, ?_⟩
    split
    next hlast =>
      subst hlast
      exact Machine.rounds_go_on ht hcode hassigns hs₀ (hfree.later hruns) (hends s₀ hruns)
    next hlast =>
      exact Machine.rounds_end ht hcode hassigns hs₀ (hfree.later hruns) (hends s₀ hruns) hlast

/-- A function that counts from one constant to another with an empty body computes the bounds and
starts to count. -/
theorem exists_bounded {u : Typed.File} (hu : u.Ok) {g : Typed.Func} (hg : g ∈ u.bodies)
    {pos at_ : Pos} {v : Var} {low high : Typed.Expr}
    (hbody : g.body = some (.mk [.forLoop pos v at_ low high (.mk [])]))
    (hindexed : g.header.indexed = []) {first last : Int} (hlow : low.value? = some (.int first))
    (hhigh : high.value? = some (.int last)) (m : Machine) (hm : m.Quiet) (hroom : 0 < m.maxDepth) :
    let ls := Layouts.build u.table
    let t := Graph.Func.lowered ls g (.mk [.forLoop pos v at_ low high (.mk [])])
    ∃ (l : Loop) (p : Graph.Spot) (s : State) (f : Frame), l.Code ls t pos v low high [] p ∧
      Reached m none t.func [] s ∧
      Bounded l t.func [] (Int64.ofInt first) (Int64.ofInt last) s f ∧ s.Unhindered [] ∧
      ∀ s₀, Machine.Loop.Completes l t.func [] s₀ := by
  intro ls t
  obtain ⟨ht, ⟨hparams, hstmts, -⟩, dom, hgood⟩ := Graph.Func.exists_code hu hg hbody
  rw [hindexed] at hparams
  cases hparams
  obtain ⟨r, hcode⟩ : ∃ r, Graph.StmtCode ls t (.forLoop pos v at_ low high (.mk [])) ⟨0, 0, 0⟩ r := by
    cases hstmts with
    | last code => exact ⟨_, code⟩
    | cons code _ => exact ⟨_, code⟩
  obtain ⟨l, hl, -⟩ := hcode.loop
  obtain ⟨q, hfirst, hlast⟩ := hl.bounds
  obtain ⟨s, hs⟩ : ∃ s, s = Machine.begun m none t.func [] := ⟨_, rfl⟩
  have hquiet : s.Quiet := hs ▸ Machine.begun_quiet hm
  have hbudget : s.budget = none := by rw [hs]; rfl
  have hwired := hgood.wired
  obtain ⟨f, hsteps, hf, -⟩ := State.steps_start ht hwired.entry hwired.zero_lt
    (show s.stack = .start t.func [] none :: [] by rw [hs]; rfl) (by simp [hbudget]) 0
  rw [State.charged_of_none hbudget] at hsteps
  have hin : Machine.Scene.In ⟨m, fun _ => none, []⟩ t (s.withTop f []) f :=
    ⟨rfl, by simp, hbudget, by rw [hs]; rfl, by rw [hs]; exact fun _ _ h => h⟩
  obtain ⟨f₁, hsteps₁, hf₁, -, hslots₁, hvalue₁⟩ :=
    Machine.Scene.Yields.known hlow ht hfirst _ f hin hf
  obtain ⟨f₂, hsteps₂, hf₂, hkeeps₂, -, hvalue₂⟩ :=
    Machine.Scene.Yields.known hhigh ht hlast _ f₁ (hin.next hslots₁) hf₁
  obtain ⟨n, hruns⟩ := State.Runs.of_steps (hsteps.trans (hsteps₁.trans hsteps₂))
  refine ⟨l, _, _, f₂, hl, hruns.reached (.start (hs ▸ Machine.push_begun hroom)),
    ⟨⟨rfl, hf₂⟩, (hkeeps₂.values _ hfirst.count_le.2).trans hvalue₁, hvalue₂⟩,
    (hquiet.unhindered hbudget).later hruns, ?_⟩
  obtain ⟨r, hbody, hturn⟩ := hl.stmts
  cases hbody
  exact fun s₀ is s' u f' _ _ hu => ⟨u, .here ⟨f', l.body, hturn, hu⟩⟩

/-- The bounds of the loop in a body that is nothing but a loop with an empty body. -/
def Typed.Block.bounds? : Typed.Block → Option (Option Constant × Option Constant)
  | .mk [.forLoop _ _ _ low high (.mk [])] => some (low.value?, high.value?)
  | _ => none

/-- A text with a loop that ends and one that does not. -/
def inclusiveText : List UInt8 :=
  "fun f(){for i in [1,3]{}}fun g(){for i in [9223372036854775807,9223372036854775807]{}}".toUTF8.toList

set_option synthInstance.maxSize 1000 in
theorem inclusiveText_checked : ∃ u : Typed.File, (parseFile "t" inclusiveText).reports = [] ∧
    (parseFile "t" inclusiveText).file.check none = .ok u ∧
    ∀ bounds ∈ [((1 : Int), (3 : Int)), (9223372036854775807, 9223372036854775807)],
      ∃ g ∈ u.bodies, g.header.indexed = [] ∧ ∃ pos v at_ low high,
        g.body = some (.mk [.forLoop pos v at_ low high (.mk [])]) ∧
        low.value? = some (.int bounds.1) ∧ high.value? = some (.int bounds.2) := by
  have hrun : (fun r : Parsed => (r.reports, (r.file.check none).toOption.map fun u =>
      u.bodies.map fun g => (g.header.indexed.length, g.body.bind Typed.Block.bounds?)))
        (parseFile "t" inclusiveText) =
      ([], some ([((1 : Int), (3 : Int)), (9223372036854775807, 9223372036854775807)].map fun x =>
        (0, some (some (.int x.1), some (.int x.2))))) := by
    rw [inclusiveText, parseFile_ofList]
    decide +kernel
  obtain ⟨hparse, u, hcheck, hbodies⟩ := Parsed.exists_checked hrun
  refine ⟨u, hparse, hcheck, fun bounds hbounds => ?_⟩
  obtain ⟨g, hg, heq⟩ := List.mem_map.1 (hbodies ▸ List.mem_map_of_mem hbounds)
  obtain ⟨hindexed, hbody⟩ := Prod.mk.inj heq
  obtain ⟨body, hbody, hmatch⟩ := Option.bind_eq_some_iff.1 hbody
  unfold Typed.Block.bounds? at hmatch
  split at hmatch
  next =>
    obtain ⟨hlow, hhigh⟩ := Prod.mk.inj (Option.some.inj hmatch)
    exact ⟨g, hg, List.length_eq_zero_iff.1 hindexed, _, _, _, _, _, hbody, hlow, hhigh⟩
  next => cases hmatch

/-- The first loop is executed for one, two and three. -/
theorem inclusiveText_counts : ∃ u : Typed.File, (parseFile "t" inclusiveText).reports = [] ∧
    (parseFile "t" inclusiveText).file.check none = .ok u ∧
    ∃ g ∈ u.bodies, ∃ (body : Typed.Block) (l : Loop) (s s₀ s' z : State) (f f' : Frame)
      (is : List Int64), g.body = some body ∧
      let fn := (Graph.Func.lowered (Layouts.build u.table) g body).func
      Reached { program := default } none fn [] s ∧ Bounded l fn [] 1 3 s f ∧ s.Unhindered [] ∧
      State.Runs 3 s s₀ ∧ Machine.Loop.Completes l fn [] s₀ ∧ Rounds l fn [] s₀ is s' ∧
      State.Runs 4 s' z ∧ z.Stands [] f' fn l.exit ∧ is.map Int64.toInt = [1, 2, 3] := by
  obtain ⟨u, hparse, hcheck, hall⟩ := inclusiveText_checked
  obtain ⟨g, hg, hindexed, pos, v, at_, low, high, hbody, hlow, hhigh⟩ := hall _ List.mem_cons_self
  obtain ⟨l, p, s, f, hl, hreached, hs, hfree, hends⟩ :=
    exists_bounded (checked_ok hparse hcheck (by simp)) hg hbody hindexed hlow hhigh
      { program := default } (Machine.standard_quiet rfl) (by decide)
  have hloop : .forLoop pos v at_ low high (.mk []) ∈
      (Typed.Block.mk [.forLoop pos v at_ low high (.mk [])]).live := List.mem_cons_self
  obtain ⟨-, -, hcounts⟩ :=
    counting_loops_exact "t" inclusiveText hparse (by simp) hcheck hg hbody hloop
  obtain ⟨s₀, hruns, hrounds⟩ := hcounts l p hl rfl _ none _ [] s hreached [] f _ _ hs hfree
    fun s₀ _ => hends s₀
  rw [if_neg (by decide)] at hrounds
  obtain ⟨is, s', z, f', hrounds, hleaves, hz, his⟩ := hrounds
  exact ⟨u, hparse, hcheck, g, hg, _, l, s, s₀, s', z, f, f', is, hbody, hreached, hs, hfree, hruns,
    hends s₀, hrounds, hleaves, hz, his.trans (by decide)⟩

/-- The second loop, whose bounds are both the greatest integer, does not end. -/
theorem inclusiveText_goes_on : ∃ u : Typed.File, (parseFile "t" inclusiveText).reports = [] ∧
    (parseFile "t" inclusiveText).file.check none = .ok u ∧
    ∃ g ∈ u.bodies, ∃ (body : Typed.Block) (l : Loop) (s s₀ : State) (f : Frame),
      g.body = some body ∧
      let fn := (Graph.Func.lowered (Layouts.build u.table) g body).func
      Reached { program := default } none fn [] s ∧
      Bounded l fn [] Int64.maxValue Int64.maxValue s f ∧ State.Runs 3 s s₀ ∧
      ∀ n, ∃ s' is, Rounds l fn [] s₀ is s' ∧ is.length = n := by
  obtain ⟨u, hparse, hcheck, hall⟩ := inclusiveText_checked
  have hu := checked_ok hparse hcheck (by simp)
  obtain ⟨g, hg, hindexed, pos, v, at_, low, high, hbody, hlow, hhigh⟩ :=
    hall _ (List.mem_cons_of_mem _ List.mem_cons_self)
  obtain ⟨l, p, s, f, hl, hreached, hs, hfree, hends⟩ := exists_bounded hu hg hbody hindexed hlow hhigh
    { program := default } (Machine.standard_quiet rfl) (by decide)
  obtain ⟨ht, -, dom, hgood⟩ := Graph.Func.exists_code hu hg hbody
  obtain ⟨e, hv⟩ := Graph.Func.verified hgood.violations hgood.listed
  obtain ⟨s₀, f₀, hruns, hs₀⟩ := Machine.ready_runs ht hl hs
    (Machine.slot_allocated hreached hv hl hs.toStands) hfree
  refine ⟨u, hparse, hcheck, g, hg, _, l, s, s₀, f, hbody, hreached, hs, hruns, fun n => ?_⟩
  obtain ⟨s', hrounds⟩ := Machine.rounds_go_on ht hl rfl hs₀ (hfree.later hruns) (hends s₀) n
  exact ⟨s', _, hrounds, by simp⟩

end ClassLang

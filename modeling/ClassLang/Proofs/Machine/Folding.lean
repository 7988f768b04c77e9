import ClassLang.Proofs.Check.Annotation
import ClassLang.Proofs.Code.Function
import ClassLang.Proofs.Machine.Operators
import ClassLang.Proofs.Tree.Encoded

/-!
Folding agrees with execution. An expression that is made of literals, constants and operators is
folded by the checker; if it is left to be computed at run time instead, the machine gets to the
same value, and nothing goes wrong on the way.
-/

namespace ClassLang

namespace Typed.Expr

/-- Whether an expression is built from literals and constants by operators and parentheses. -/
def isConstant : Expr → Bool
  | .const .. | .literal .. => true
  | .unary _ _ x _ _ | .paren _ x => x.isConstant
  | .binary _ x y _ _ => x.isConstant && y.isConstant
  | _ => false

/-- The same expression, with all its operations left to be computed at run time. -/
def unfolded : Expr → Expr
  | .unary pos op x ty _ => .unary pos op x.unfolded ty none
  | .binary op x y ty _ => .binary op x.unfolded y.unfolded ty none
  | .paren pos x => .paren pos x.unfolded
  | x => x

@[simp] theorem ty_unfolded : (x : Expr) → x.unfolded.ty = x.ty
  | .paren _ x => ty_unfolded x
  | .var .. | .const .. | .literal .. | .unary .. | .binary .. | .call .. | .invoke ..
  | .field .. | .init .. => rfl

/-- What is still known of an expression that has been left to be computed was known before. -/
theorem value_unfolded {k : Constant} :
    (x : Expr) → x.unfolded.value? = some k → x.value? = some k
  | .paren _ x => value_unfolded x
  | .unary .. | .binary .. => nofun
  | .var .. | .const .. | .literal .. | .call .. | .invoke .. | .field .. | .init .. => id

/-- An expression and all that is inside it have types whose constants are computed exactly. -/
def IsExact (x : Expr) : Prop := ∀ y ∈ x :: x.inner, y.ty.isExact = true

variable {Γ : Context} {vars : List Var} {x : Expr}

/-- A well typed constant expression has a value that fits its type, and so has each expression
inside it. -/
theorem Ok.folds (h : x.Ok Γ vars) (hconst : x.isConstant = true) (hexact : x.IsExact) :
    ∀ y ∈ x :: x.inner, ∃ k, y.value? = some k ∧ k.Fits y.ty := by
  induction h with
  | var | call | invoke | invokeBound | field | init => cases hconst
  | const fits | literal fits =>
      intro y hy
      obtain rfl := List.mem_singleton.1 hy
      exact ⟨_, rfl, fits⟩
  | @unary _ op x value _ defined fits folds ih =>
      obtain ⟨hty, hinner⟩ := List.forall_mem_cons.1 hexact
      have hvalues := ih hconst hinner
      obtain ⟨a, ha, hfits⟩ := hvalues x List.mem_cons_self
      obtain ⟨k, hk⟩ := Option.isSome_iff_exists.1 (Constant.unary_isSome hty defined hfits)
      obtain rfl : value = some k := by rw [folds, ha, Option.bind_some, hk]
      exact List.forall_mem_cons.2 ⟨⟨k, rfl, fits k rfl⟩, hvalues⟩
  | @binary op x y value _ _ same defined fits folds _ ihx ihy =>
      obtain ⟨hconst, hconst'⟩ := Bool.and_eq_true_iff.1 hconst
      obtain ⟨-, hinner⟩ := List.forall_mem_cons.1 hexact
      obtain ⟨hleft, hright⟩ := List.forall_mem_append.1 hinner
      have hvalues := ihx hconst hleft
      have hvalues' := ihy hconst' hright
      obtain ⟨a, ha, hfits⟩ := hvalues x List.mem_cons_self
      obtain ⟨b, hb, hfits'⟩ := hvalues' y List.mem_cons_self
      obtain ⟨k, hk⟩ := Option.isSome_iff_exists.1
        (Constant.binary_isSome (hleft x List.mem_cons_self) defined hfits (same ▸ hfits'))
      obtain rfl : value = some k := by
        rw [folds, Constant.fold, ha, hb, Option.bind_some, Option.bind_some, hk]
      exact List.forall_mem_cons.2
        ⟨⟨k, rfl, fits k rfl⟩, List.forall_mem_append.2 ⟨hvalues, hvalues'⟩⟩
  | @paren pos x _ ih =>
      have hvalues := ih hconst (List.forall_mem_cons.1 hexact).2
      exact List.forall_mem_cons.2 ⟨hvalues x List.mem_cons_self, hvalues⟩

end Typed.Expr

/-! Running what has not been folded -/

namespace Machine

open Typed.Expr (Ok IsExact)

variable {Γ : Typed.Context} {vars : List Var} {x : Typed.Expr} {ls : Layouts}

/-- An expression that is left to be computed has the value that it folds to. -/
theorem yields_unfolded (c : Scene) (h : x.Ok Γ vars) (hexact : x.IsExact) :
    ∀ k ∈ x.value?, c.Yields ls x.unfolded (.ofConstant k) := by
  induction h with
  | var | call | invoke | invokeBound | field | init => exact fun k hk => nomatch hk
  | const | literal =>
      intro k hk
      obtain rfl := Option.some.inj hk
      exact Scene.Yields.known rfl
  | @unary _ op x value operand defined fits folds ih =>
      obtain ⟨hty, hinner⟩ := List.forall_mem_cons.1 hexact
      intro k hk
      obtain ⟨a, ha, hak⟩ := Option.bind_eq_some_iff.1 (folds.symm.trans hk)
      refine Scene.Yields.unary (ih hinner a ha) fun v hop => ?_
      rw [Typed.Expr.ty_unfolded] at hop
      exact unary_ofConstant hty hop (operand.value_fits ha) hak
  | @binary op x y value left right same defined fits folds divisor ihx ihy =>
      obtain ⟨-, hinner⟩ := List.forall_mem_cons.1 hexact
      obtain ⟨hleft, hright⟩ := List.forall_mem_append.1 hinner
      have hty := hleft x List.mem_cons_self
      intro k hk
      obtain ⟨a, ha, hk'⟩ := Option.bind_eq_some_iff.1 (folds.symm.trans hk)
      obtain ⟨b, hb, hk'⟩ := Option.bind_eq_some_iff.1 hk'
      have hfits := left.value_fits ha
      have hfits' : b.Fits x.ty := same ▸ right.value_fits hb
      have hx := ihx hleft a ha
      have hy := ihy hright b hb
      by_cases hlogic : op = .and ∨ op = .or
      · have hbool : x.ty = .bool := by
          refine Ty.eq_bool ?_
          rcases hlogic with rfl | rfl <;> exact defined
        obtain ⟨a, rfl⟩ := (hbool ▸ hfits).exists_bool
        obtain ⟨b, rfl⟩ := (hbool ▸ hfits').exists_bool
        have hlast : Value.ofConstant k =
            .bool (if a = decide (op = .and) then b else a) := by
          rcases hlogic with rfl | rfl <;> obtain rfl := Option.some.inj hk' <;>
            cases a <;> rfl
        rw [hlast]
        exact Scene.Yields.logic hlogic hx fun _ => hy
      · refine Scene.Yields.binary hlogic hx hy fun f v hop => ?_
        rw [Typed.Expr.ty_unfolded] at hop
        exact binary_ofConstant hty defined hlogic hop hfits hfits' (divisor a ha b hb) hk'
          (fits k hk)
  | @paren pos x _ ih =>
      intro k hk
      refine Scene.Yields.paren (ih (List.forall_mem_cons.1 hexact).2 k hk) fun k' hk' => ?_
      rw [Option.some.inj (hk.symm.trans (Typed.Expr.value_unfolded x hk'))]

end Machine

namespace Graph

open Build (Computes CodesExpr Codes CodesRun Flows computes_constant computes_unary computes_binary
  computes_paren codes_constant codes_unary codes_binary codes_paren)
open Builder (Value)

variable {Γ : Typed.Context} {vars vars' : List Var} {x : Typed.Expr} {ls : Layouts}

/-- An expression that is left to be computed is lowered without a fault. -/
theorem makes_unfolded (ls : Layouts) (vars' : List Var) (h : x.Ok Γ vars)
    (hconst : x.isConstant = true) :
    Computes vars' (Lower.expr ls x.unfolded) (Value x.unfolded.ty) ∧
      CodesExpr ls vars' x.unfolded := by
  induction h with
  | var | call | invoke | invokeBound | field | init => cases hconst
  | const fits =>
      refine ⟨fun pend dom s hs => ?_, fun pend dom s hs => ?_⟩ <;>
        simp only [Typed.Expr.unfolded, Lower.expr]
      · exact computes_constant fits _ _ _ hs
      · refine (codes_constant fits _ _ _ hs).imp ?_
        rintro t p i q _ ⟨rfl, rfl, hinstr⟩
        exact .const hinstr
  | literal fits =>
      refine ⟨fun pend dom s hs => ?_, fun pend dom s hs => ?_⟩ <;>
        simp only [Typed.Expr.unfolded, Lower.expr]
      · exact computes_constant fits _ _ _ hs
      · refine (codes_constant fits _ _ _ hs).imp ?_
        rintro t p i q _ ⟨rfl, rfl, hinstr⟩
        exact .literal hinstr
  | @unary pos op x value _ defined fits _ ih =>
      obtain ⟨hx, hcode⟩ := ih hconst
      rw [Typed.Expr.unfolded]
      refine ⟨?_, codes_unary hx hcode (by simp)⟩
      rw [← Typed.Expr.ty_unfolded x]
      exact computes_unary hx (by simp)
  | @binary op x y value _ _ same defined _ _ _ ihx ihy =>
      obtain ⟨hconst, hconst'⟩ := Bool.and_eq_true_iff.1 hconst
      obtain ⟨hx, hcode⟩ := ihx hconst
      obtain ⟨hy, hcode'⟩ := ihy hconst'
      have hsame : x.unfolded.ty = y.unfolded.ty := by simpa using same
      rw [← Typed.Expr.ty_unfolded x] at defined
      rw [Typed.Expr.unfolded, ← Typed.Expr.ty_unfolded x]
      exact ⟨computes_binary hx hy hsame defined (by simp),
        codes_binary hx hy hcode hcode' hsame defined (by simp)⟩
  | @paren pos x inner ih =>
      obtain ⟨hx, hcode⟩ := ih hconst
      have hfits : ∀ c ∈ x.unfolded.value?, c.Fits x.unfolded.ty := fun c hc =>
        Typed.Expr.ty_unfolded x ▸ inner.value_fits (Typed.Expr.value_unfolded x hc)
      exact ⟨computes_paren hx hfits, codes_paren hcode hfits⟩

end Graph

/-- The body that returns the value of an expression. -/
def Typed.Block.returning (x : Typed.Expr) : Typed.Block := .mk [.ret Pos.none (some x)]

/-- A function without parameters that returns the value of an expression. -/
def Typed.Func.returning (name : Ident) (x : Typed.Expr) : Typed.Func where
  decl := ⟨name.pos, name, none, [], [], none, none, false⟩
  ref := .func name.text
  sym := .func name false
  header := ⟨[], none, [], none, ⟨[], [], x.ty⟩⟩
  body := some (.returning x)

namespace Graph

open Build (Computes CodesExpr Codes CodesRun Flows codes_ret flows_ret)
open Builder (Value Step)

variable {x : Typed.Expr} {ls : Layouts}

/-- The construction of a function that returns the value of an expression. -/
theorem run_returning (name : Ident) (s : Builder) (hc : s.current.isSome = true) :
    (Build.argumentsAndBody ls (.returning name x) (.returning x)).run s =
      (do
        let i ← Lower.expr ls x
        Build.ret (some i)
        Build.enter none : Build Unit).run s := by
  have hstmts : (Build.argumentsAndBody ls (.returning name x) (.returning x)).run s =
      (Lower.block ls (.returning x)).run s := rfl
  rw [hstmts, Typed.Block.returning, Lower.block, Build.run_stmts_cons hc, Lower.stmt]
  simp only [Build.run_bind, Build.run_enter]
  exact Build.run_stmts_none rfl

/-- The graph of a function that returns the value of an expression is finished, and it is the code
of the expression and a return. -/
theorem lowered_returning (name : Ident) (hx : Computes [] (Lower.expr ls x) (Value x.ty))
    (hcode : CodesExpr ls [] x) (hvoid : x.ty.isVoid = false) :
    ∃ t, Func.lowered ls (.returning name x) (.returning x) = t ∧ t.Finished ∧
      t.func.entry = some 0 ∧ 0 < t.func.blocks.size ∧
      ∃ i q, ExprCode ls t x ⟨0, 0, 0⟩ i q ∧ t.func.Quits q (some i) := by
  obtain ⟨start, hstart⟩ : ∃ s, Builder.start name.text (.func name.text) ⟨[], [], x.ty⟩ none = s :=
    ⟨_, rfl⟩
  have hready : Build.Ready [] [] (fun _ => []) start := by
    rw [← hstart]
    exact ⟨Builder.inv_start _ _ _ _, rfl, by simp [Build.Bound]⟩
  have hresult : start.func.hasResult = true := by
    rw [← hstart]
    simp [Builder.start, Func.hasResult, hvoid]
  obtain ⟨dom, hstep, -⟩ : Flows [] (fun _ => []) start [] (do
      let i ← Lower.expr ls x
      Build.ret (some i)
      Build.enter none) :=
    .bind (hx _ _ _ hready) fun i _ _ hstep hcur hi =>
      flows_ret (hready.next hstep hcur) ((Build.Step.hasResult hstep).trans hresult) fun j hj =>
        Option.some.inj hj ▸ hi.exists_has
  have hcodes := CodesRun.bind (hx _ _ _ hready) (hcode _ _ _ hready) fun i _ _ hstep hcur _ =>
    codes_ret (i := some i) (hready.next hstep hcur)
  rw [← run_returning name start hready.current] at hstep
  rw [CodesRun, ← run_returning name start hready.current] at hcodes
  have hlowered : Func.lowered ls (.returning name x) (.returning x) =
      ((Build.argumentsAndBody ls (.returning name x) (.returning x)).run start).2 := by
    have hlast : ((Build.argumentsAndBody ls (.returning name x) (.returning x)).run start).2.current =
        none := by
      rw [run_returning name start hready.current]
      rfl
    rw [Func.lowered, Build.run_funcBody]
    change (Build.finish.run ((Build.argumentsAndBody ls _ _).run (Builder.start name.text
      (.func name.text) ⟨[], [], x.ty⟩ none)).2).2 = _
    rw [hstart, Build.run_finish hstep.inv, hlast]
    rfl
  obtain ⟨hdistinct, hapart⟩ := Func.slots_lowered ls (show Typed.Func.body
    (.returning name x) = some (.returning x) from rfl) List.nodup_nil
  rw [hlowered] at hdistinct hapart ⊢
  generalize ((Build.argumentsAndBody ls (.returning name x) (.returning x)).run start).2 = t at *
  have hinv := hstep.inv
  have ht : t.Finished := ⟨hdistinct, hapart.nodup, ⟨_, hinv.slotted⟩, ⟨_, hinv.good.coded⟩⟩
  obtain ⟨-, i, q, hcode, -, hquits⟩ := hcodes t ht (.refl t)
  refine ⟨t, rfl, ht, hinv.good.wired.entry, hinv.good.wired.zero_lt, i, q, ?_, hquits⟩
  rw [← hstart] at hcode
  exact hcode

end Graph

namespace Machine

variable {x : Typed.Expr} {ls : Layouts} {k : Value}

/-- A function that returns the value of an expression without side effects is called. -/
theorem call_returning (m : ClassLang.Machine) (hdepth : 0 < m.maxDepth) (name : Ident)
    (hx : Graph.Build.Computes [] (Graph.Lower.expr ls x) (Graph.Builder.Value x.ty))
    (hcode : Graph.Build.CodesExpr ls [] x) (hvoid : x.ty.isVoid = false)
    (hyields : ∀ c : Scene, c.Yields ls x k) :
    ∃ n, ∀ fuel, n ≤ fuel →
      m.call fuel none (Graph.Func.ofTyped ls (.returning name x) (.returning x)) [] =
        some ⟨m, "", .ok k⟩ := by
  obtain ⟨t, hlowered, ht, hentry, hknown, i, q, hcode, hquits⟩ :=
    Graph.lowered_returning name hx hcode hvoid
  obtain ⟨s, hs⟩ : ∃ s : State, s =
    { machine := m, budget := none, stack := [.start t.func [] none], depth := 1 } := ⟨_, rfl⟩
  obtain ⟨f, hsteps, hf, -, houter⟩ := State.steps_start ht hentry hknown
    (show s.stack = .start t.func [] none :: [] by rw [hs]) (by simp [hs]) 0
  obtain ⟨f', hsteps', hf', hkeeps, -, hvalue⟩ := hyields ⟨m, fun _ => none, []⟩ ht hcode
    (s.charged.withTop f []) f ⟨rfl, by simp, by simp [hs, State.charged, State.withTop],
      by simp [hs, State.charged, State.withTop],
      by simp [hs, State.charged, State.withTop]⟩ hf
  have hlast : ((s.charged.withTop f []).withTop f' []).step =
      .done { machine := m, budget := none } (.ok k) := by
    rw [State.step_quits rfl hf' hquits, hkeeps.outer, houter, hs, ← hvalue]
    rfl
  obtain ⟨n, hn⟩ := State.run_of_steps (hsteps.trans hsteps') hlast
  have hpush : ({ machine := m, budget := none } : State).push
      (Graph.Func.ofTyped ls (.returning name x) (.returning x)) [] none = .next s := by
    rw [State.push_eq, hs, Graph.Func.ofTyped, hlowered]
    exact if_neg (Int.not_le.2 (Int.natCast_pos.2 hdepth))
  refine ⟨n, fun fuel hfuel => ?_⟩
  unfold Machine.call Machine.callWithin
  dsimp only
  rw [hpush]
  dsimp only
  rw [hn fuel hfuel]
  rfl

end Machine

/-- Types whose constants are computed exactly are no `void`. -/
theorem Ty.isVoid_of_isExact {t : Ty} (h : t.isExact = true) : t.isVoid = false := by
  cases t <;> first | rfl | cases h

/-- The fact about the type of an expression with a value. -/
theorem Typed.Expr.typing_of_value {x : Typed.Expr} {k : Constant} (hvoid : x.ty.isVoid = false)
    (hk : x.value? = some k) : x.typing = .expr x.pos x.erase.text x.ty .const (some k) := by
  simp [typing, mode, hvoid, hk]

/-- Folding agrees with execution. In a text that passes the checker, a constant expression all of
whose parts are integers, truth values or texts is recorded with a value, and so is each part; those
of integers are machine words. If the expression is lowered with nothing folded, a run of it ends
without a failure and gives the recorded value. -/
theorem folding_agrees_with_execution (name : String) (bytes : List UInt8) {limit : Option Nat}
    {u : Typed.File} (hparse : (parseFile name bytes).reports = []) (hlimit : limit ≠ some 0)
    (hcheck : (parseFile name bytes).file.check limit = .ok u) {x : Typed.Expr}
    (hx : Typed.Site.value x ∈ u.sites) (hconst : x.isConstant = true)
    (hexact : ∀ y ∈ x :: x.inner, y.ty = .int ∨ y.ty = .bool ∨ y.ty = .str) :
    ∃ k : Constant, x.value? = some k ∧
      (∀ y ∈ x :: x.inner, ∃ k' : Constant, y.value? = some k' ∧ k'.Fits y.ty ∧
        .expr y.pos y.erase.text y.ty .const (some k') ∈ u.facts) ∧
      ∀ (ls : Layouts) (m : Machine) (id : Ident), 0 < m.maxDepth → ∃ n, ∀ fuel, n ≤ fuel →
        m.call fuel none (Graph.Func.ofTyped ls (.returning id x.unfolded) (.returning x.unfolded)) [] =
          some ⟨m, "", .ok (.ofConstant k)⟩ := by
  obtain ⟨_, _, hshape⟩ := parseFile_clean hparse
  obtain ⟨Γ, -, -, hannotates⟩ := File.check_typed hshape hcheck hlimit
  obtain ⟨Δ, vars, hok⟩ := hannotates.ok _ hx x rfl
  have hrecorded : x.facts ⊆ u.facts := u.sites_recorded _ hx
  have hexact : x.IsExact := fun y hy => by
    obtain h | h | h := hexact y hy <;> rw [h] <;> rfl
  have hfolds := hok.folds hconst hexact
  obtain ⟨k, hk, -⟩ := hfolds x List.mem_cons_self
  refine ⟨k, hk, fun y hy => ?_, fun ls m id hdepth => ?_⟩
  · obtain ⟨k', hk', hfits⟩ := hfolds y hy
    refine ⟨k', hk', hfits, ?_⟩
    rw [← Typed.Expr.typing_of_value (Ty.isVoid_of_isExact (hexact y hy)) hk']
    rcases List.mem_cons.1 hy with rfl | hy
    · exact hrecorded y.typing_mem
    · exact hrecorded (x.facts_inner y hy y.typing_mem)
  · obtain ⟨hcomputes, hcodes⟩ := Graph.makes_unfolded ls [] hok hconst
    refine Machine.call_returning m hdepth id hcomputes hcodes ?_ fun c =>
      Machine.yields_unfolded c hok hexact k hk
    rw [Typed.Expr.ty_unfolded]
    exact Ty.isVoid_of_isExact (hexact x List.mem_cons_self)

/-- A text with a constant that depends on how quotients of negative integers are cut. -/
def signText : List UInt8 := "const a:bool=(-7/2==-3)&&!(-7%2==1);".toUTF8.toList

theorem signText_computed : ∃ u k, (parseFile "t" signText).file.check none = .ok u ∧
    k ∈ u.consts ∧ k.expr.value? = some (.bool true) ∧ ∃ n, ∀ fuel, n ≤ fuel →
      ({ program := default } : Machine).call fuel none (Graph.Func.ofTyped default
        (.returning ⟨Pos.none, "f"⟩ k.expr.unfolded) (.returning k.expr.unfolded)) [] =
          some ⟨{ program := default }, "", .ok (.bool true)⟩ := by
  have hchecked : (fun r : Parsed => (r.reports, (r.file.check none).toOption.map fun u =>
      u.consts.map fun k => (k.expr.value?, k.expr.isConstant,
        (k.expr :: k.expr.inner).all (·.ty.isExact)))) (parseFile "t" signText) =
      ([], some [(some (.bool true), true, true)]) := by
    rw [signText, parseFile_ofList]
    decide +kernel
  obtain ⟨hparse, u, hcheck, hvalues⟩ := Parsed.exists_checked hchecked
  obtain ⟨k, hconsts, hk⟩ := List.map_eq_singleton_iff.1 hvalues
  simp only [Prod.mk.injEq, List.all_eq_true] at hk
  obtain ⟨hvalue, hconst, hexact⟩ := hk
  have hmem : k ∈ u.consts := by simp [hconsts]
  obtain ⟨d, hd, hdk⟩ := List.mem_filterMap.1 hmem
  obtain rfl : d = .const k := by cases d <;> simp_all
  obtain ⟨v, hv, -, hcall⟩ := folding_agrees_with_execution "t" signText hparse (by simp) hcheck
    (x := k.expr) (List.mem_flatMap.2 ⟨_, hd, List.mem_cons_self⟩) hconst
    fun y hy => Constant.exact_cases (hexact y hy)
  obtain rfl := Option.some.inj (hv.symm.trans hvalue)
  exact ⟨u, k, hcheck, hmem, hvalue, hcall default { program := default } ⟨Pos.none, "f"⟩ (by decide)⟩

end ClassLang

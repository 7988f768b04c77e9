import ClassLang.Proofs.Machine.Counting
import ClassLang.Proofs.Machine.Spares
import ClassLang.Proofs.Meaning.Stmt

/-!
The code of a well typed body follows the course of the body. The induction is on the typing of the
statements, which have variables of their own places.
-/

namespace ClassLang

theorem Ty.eq_void {t : Ty} (h : t.isVoid = true) : t = .void := by
  cases t <;> simp_all [isVoid]

namespace Machine

open Direct (Course Env Flow)
open ClassLang.Graph (Spot StmtCode StmtsCode)

namespace Activation

variable {A : Activation}

/-- Behind a statement the variables that are visible have places of their own, which are not those
of variables that are declared later. -/
theorem nodup_behind {Γ : Typed.Context} {result : Ty} {vars vars' : List Var} {s : Typed.Stmt}
    {later : List Pos} (h : s.Ok Γ result vars vars')
    (hnodup : (s.binders ++ later ++ vars.map (·.pos)).Nodup) :
    (later ++ vars'.map (·.pos)).Nodup := by
  have hkept : (later ++ vars.map (·.pos)).Nodup := by
    rw [List.append_assoc] at hnodup
    exact (List.nodup_append.1 hnodup).2.1
  cases h with
  | bind => exact (List.perm_middle.nodup_iff).2 hnodup
  | _ => exact hkept

mutual

/-- The code of a well typed statement follows its course. -/
theorem runs_stmt (hA : A.Valid) {result : Ty} (hresult : A.result = A.type result)
    {vars vars' : List Var} {s : Typed.Stmt} {p : Spot} {r : Option Spot}
    (h : s.Ok A.context result vars vars') (hnodup : (s.binders ++ vars.map (·.pos)).Nodup)
    (hcode : StmtCode (Layouts.build A.table) A.code s p r) :
    A.Runs vars vars' s.returns (Direct.stmt A.setting · s) p r := by
  cases h with
  | empty =>
      cases hcode with
      | empty => exact Runs.of_eq .empty fun env => by rw [Direct.stmt]
  | expr ok _ =>
      cases hcode with
      | expr code =>
          exact Runs.of_eq (.expr (covers hA ok code)) fun env => by rw [Direct.stmt]; rfl
  | bind ok _ _ fits =>
      cases hcode with
      | bind code bind =>
          have hfresh := (List.nodup_cons.1 hnodup).1
          exact Runs.of_eq (.bind hA (covers hA ok code) code.count_le.1 bind hfresh fits)
            fun env => by rw [Direct.stmt]; rfl
  | @assign _ x y left assignable right fits =>
      have hvars := (List.nodup_append.1 hnodup).2.1
      have hleft := left.unparen
      rw [← Typed.Expr.ty_unparen x] at fits
      cases hcode with
      | assignVar target found code store =>
          rw [target] at hleft fits
          cases hleft with
          | var hfound =>
              exact Runs.of_eq (.assignVar hA target hfound found hvars (covers hA right code)
                code.count_le.1 fits store) fun env => by rw [Direct.stmt]
      | assignField target object code place store =>
          rw [target] at hleft fits
          cases hleft with
          | field receiver cls hfield =>
              exact Runs.of_eq (.assignField hA target (receiver.scoped hA.sound) cls hfield place
                (covers hA receiver object) object.count_le.1 object.count_le.2
                (covers hA right code) code.count_le.1 fits store) fun env => by rw [Direct.stmt]
  | block body =>
      cases hcode with
      | block code =>
          obtain ⟨inner, rfl⟩ := body.exists_append
          exact Runs.of_eq (.block (runs_stmts hA hresult body hnodup code))
            fun env => by rw [Direct.stmt, Direct.block]
  | @ifThen _ _ cond b ok bool body =>
      cases hcode with
      | ifThen test fork code more ends =>
          obtain ⟨inner, rfl⟩ := body.exists_append
          have hreturns : (Typed.Stmt.ifElse cond (.mk b) none).returns =
              (Typed.returnsAny b && false) := (Bool.and_false _).symm
          rw [hreturns]
          refine Runs.of_eq (.ifElse hA.finished (covers hA ok test) bool fork test.count_le.1 more
            ((Runs.block (runs_stmts hA hresult body hnodup code)).joins hA.finished
              fun q hq => ⟨_, _, rfl, (ends q hq).1⟩) .empty) fun env => ?_
          rw [Direct.stmt]
          simp only [Direct.block]
          rfl
  | ifElse ok bool body alternative =>
      rw [Typed.Stmt.binders] at hnodup
      cases hcode with
      | ifElse test fork code more alternative' ends =>
          obtain ⟨inner, rfl⟩ := body.exists_append
          have hbody := hnodup.sublist
            (List.Sublist.append_right (List.sublist_append_left _ _) _)
          have hother := hnodup.sublist
            (List.Sublist.append_right (List.sublist_append_right _ _) _)
          refine Runs.of_eq (.ifElse hA.finished (covers hA ok test) bool fork test.count_le.1 more
            ((Runs.block (runs_stmts hA hresult body hbody code)).joins hA.finished fun q hq => ?_)
            ((runs_stmt hA hresult alternative hother alternative').joins hA.finished
              fun q hq => ?_)) fun env => ?_
          · obtain ⟨d, n, hout, hleads, -⟩ := ends q (.inl hq)
            exact ⟨d, n, hout, hleads⟩
          · obtain ⟨d, n, hout, hleads, -⟩ := ends q (.inr hq)
            exact ⟨d, n, hout, hleads⟩
          · rw [Direct.stmt]
            simp only [Direct.block]
            rfl
  | whileLoop ok bool body =>
      cases hcode with
      | whileLoop leads test fork code more ends =>
          obtain ⟨inner, rfl⟩ := body.exists_append
          refine Runs.of_eq (.whileLoop hA.finished leads (covers hA ok test) bool fork
            test.count_le.1 (.block (runs_stmts hA hresult body hnodup code))
            fun q hq => (ends q hq).1) fun env => ?_
          rw [Direct.stmt]
          simp only [Direct.block]
          rfl
  | forLoop lowOk lowInt highOk highInt int body =>
      cases hcode with
      | forLoop start stop bind leads enters load test fork code more ends =>
          obtain ⟨inner, rfl⟩ := body.exists_append
          have hfresh := (List.nodup_cons.1 hnodup).1
          have hbody := (List.perm_middle.nodup_iff).2 hnodup
          have hcode := code.behind
          refine Runs.of_eq (.forLoop hA.finished int lowInt highInt
            (fun hmem => hfresh (List.mem_append_right _ hmem)) (covers hA lowOk start)
            start.count_le.1 start.count_le.2 (covers hA highOk stop) stop.count_le.1
            stop.count_le.2 bind leads enters load test fork
            (.block (runs_stmts hA hresult body hbody code)) fun hreturns x hx => ?_) fun env => ?_
          · obtain ⟨e, he, hle⟩ := hcode hreturns
            obtain rfl : e = x := Option.some.inj (he.symm.trans hx)
            exact ⟨(ends _ hx).1, Nat.le_trans (Nat.le_add_right _ 2) hle⟩
          · rw [Direct.stmt]
            simp only [Direct.block]
            rfl
  | ret void =>
      cases hcode with
      | ret quits =>
          have hvoid : A.result = .void := by
            obtain rfl := Ty.eq_void void
            exact hresult
          exact Runs.of_eq (.ret quits hvoid) fun env => by rw [Direct.stmt]
  | retValue ok _ fits =>
      cases hcode with
      | retValue code quits =>
          exact Runs.of_eq (.retValue hA hresult (covers hA ok code) fits quits)
            fun env => by rw [Direct.stmt]; rfl

/-- The code of well typed statements follows their course. -/
theorem runs_stmts (hA : A.Valid) {result : Ty} (hresult : A.result = A.type result)
    {vars vars' : List Var} {list : List Typed.Stmt} {p : Spot} {r : Option Spot}
    (h : Typed.StmtsOk A.context result vars list vars')
    (hnodup : (Typed.bindersAll list ++ vars.map (·.pos)).Nodup)
    (hcode : StmtsCode (Layouts.build A.table) A.code list p r) :
    A.Runs vars vars' (Typed.returnsAny list) (Direct.stmts A.setting · list) p r := by
  cases h with
  | nil =>
      cases hcode with
      | nil => exact Runs.of_eq .empty fun env => by rw [Direct.stmts]
  | cons first others =>
      rw [Typed.bindersAll] at hnodup
      have hfirst := hnodup.sublist (List.Sublist.append_right (List.sublist_append_left _ _) _)
      have hothers := nodup_behind first hnodup
      cases hcode with
      | last code =>
          exact Runs.of_eq (.cons (runs_stmt hA hresult first hfirst code)
            (fun _ q hq => by cases hq) fun q hq => by cases hq) fun env => by rw [Direct.stmts]
      | cons code code' =>
          refine Runs.of_eq (.cons (runs_stmt hA hresult first hfirst code)
            (fun hreturns q hq => ?_) fun q hq => ?_) fun env => by rw [Direct.stmts]
          · obtain ⟨e, he, hle⟩ := code.behind hreturns
            obtain rfl : e = q := Option.some.inj (he.symm.trans hq)
            exact hle
          · obtain rfl := Option.some.inj hq
            exact runs_stmts hA hresult others hothers code'

end

end Activation

end Machine

end ClassLang

/-!
A function that is called with arguments of its types follows its course. First it enters its entry
block, where the slots of its variables are made; then the arguments are stored into slots of their
own, and then the body runs.
-/

namespace ClassLang

namespace Machine

open Direct (Course Env Flow)
open ClassLang.Graph (Instr Spot ParamsCode)

/-! The start of a function -/

namespace Follows

variable {u : Typed.File} {R : Ty} {k : Nat} {σ : Marks} {c : Course Value} {f : Frame}
  {g : Graph.Func} {t : Graph.Builder}

/-- Slots are made. -/
theorem slots {is todo : List Nat} (hslots : ∀ i ∈ is, g.isSlot i = true) (hfn : f.fn = g)
    (htodo : f.todo = some (is ++ todo)) (hsize : f.slots.size = g.instrs.size)
    (h : ∀ f', f'.fn = g → f'.block = f.block → f'.todo = some todo → f'.args = f.args →
      f'.values.size = f.values.size → f'.slots.size = g.instrs.size →
      (∀ i, i ∈ is ∨ (f.slots.getD i none).isSome = true → (f'.slots.getD i none).isSome = true) →
      Follows u R k σ c f') : Follows u R k σ c f := by
  induction is generalizing f with
  | nil => exact h f hfn rfl htodo rfl rfl hsize fun i hi => by simpa using hi
  | cons i is ih =>
      obtain ⟨hi, his⟩ := List.forall_mem_cons.1 hslots
      obtain ⟨w, hw, hop⟩ : ∃ w, g.instr? i = some w ∧ w.op = .alloca := by
        simpa [Graph.Func.isSlot] using hi
      have hat : f.At i w (is ++ todo) := ⟨htodo, hfn ▸ hw⟩
      refine .pass (· = (f.stored i .nil).given i .nil (is ++ todo))
        (hat.quiet (by simp [hop]) (by simp [hop])) ?_ ?_
      · intro s rest hs _
        exact ⟨_, State.next_slot hs (hfn ▸ hi) htodo, rfl, rfl⟩
      · rintro _ rfl
        refine (ih (f := (f.stored i .nil).given i .nil (is ++ todo)) his hfn rfl
          (by simpa [Frame.given, Frame.stored] using hsize)
          fun f' hfn' hblock htodo' hargs hvalues hslots' hmade => ?_).mono (Nat.sub_le k 1)
        refine h f' hfn' hblock htodo' hargs ?_ hslots' fun j hj => hmade j ?_
        · simpa [Frame.given, Frame.stored] using hvalues
        · have hlt := Graph.Func.instr?_lt hw
          by_cases heq : i = j
          · subst heq
            refine .inr ?_
            simp [Frame.given, Frame.stored, Array.getD_eq_getD_getElem?, hsize, hlt]
          · refine hj.imp (fun hj => (List.mem_cons.1 hj).resolve_left (Ne.symm heq)) fun hj => ?_
            simpa [Frame.given, Frame.stored, Array.getD_eq_getD_getElem?,
              Array.getElem?_setIfInBounds_ne heq] using hj

/-- A function that has been started enters its first block, where its slots are made. -/
theorem start {args : List Value} {outer : Option Waiting} (ht : t.Finished)
    (hentry : t.func.entry = some 0) (hknown : 0 < t.func.blocks.size)
    (h : ∀ f, f.Stands t.func ⟨0, 0, 0⟩ → f.args = args →
      (∀ i, t.func.isSlot i = true → (f.slots.getD i none).isSome = true) → Follows u R k σ c f) :
    Follows u R k σ c (.start t.func args outer) := by
  refine .enter (fun f => ∃ is, (∀ i, t.func.isSlot i = true ↔ i ∈ is) ∧
    f = { Frame.start t.func args outer with todo := some (is ++ t.func.body 0) }) rfl ?_ ?_
  · intro s rest hs _ hbudget
    obtain ⟨is, hall, hnext⟩ := State.next_start ht hentry hknown hs hbudget
    exact ⟨_, hnext, rfl, is, hall, rfl⟩
  · rintro _ ⟨is, hall, rfl⟩
    refine (slots (fun i hi => (hall i).2 hi) rfl rfl (by simp [Frame.start])
      fun f hfn hblock htodo hargs hvalues hsize hmade => ?_).mono (Nat.sub_le k 1)
    refine h f ⟨hfn, hblock.trans hentry, htodo, ?_, hsize⟩ hargs fun i hi =>
      hmade i (.inl ((hall i).1 hi))
    rw [hvalues]
    simp [Frame.start]

end Follows

namespace Activation

variable {A : Activation} {vars : List Var} {σ : Marks} {f : Frame} {env : Env} {p q : Spot}
  {k : Nat}

/-! Parameters -/

/-- What the variables of a header stand for: the number of each one leads to its argument. -/
def Gets (A : Activation) (σ : Marks) (args : List Value) (e : Var × Int64) (x : Value) : Prop :=
  (∃ i : Nat, e.2.toInt + (if A.code.func.isMethod then 1 else 0) = i ∧ args[i]? = some x) ∧
    x.Has A.table σ (A.type e.1.ty)

/-- The arguments are stored into slots of their own. -/
theorem params_follow (hA : A.code.Finished) {l : List (Var × Int64)} {xs : List Value}
    (hcode : ParamsCode A.code l p q) (hxs : List.Forall₂ (A.Gets σ f.args) l xs)
    (hnodup : (l.map (·.1.pos) ++ vars.map (·.pos)).Nodup) (hf : f.Stands A.code.func p)
    (hsees : A.Sees σ f vars env) {c : Course Value}
    (h : ∀ f', f'.Stands A.code.func q → A.Sees σ f' ((l.map (·.1)).reverse ++ vars)
      (((l.map (·.1.name)).zip xs).reverse ++ env) → A.Follows k σ c f') : A.Follows k σ c f := by
  induction l generalizing xs vars env f p with
  | nil =>
      cases hcode
      cases hxs
      exact h f hf hsees
  | cons e l ih =>
      obtain ⟨v, index⟩ := e
      cases hxs with
      | @cons _ x _ xs hx hxs =>
          obtain ⟨⟨i, hi, hget⟩, hty⟩ := hx
          cases hcode with
          | cons arg bind others =>
              obtain ⟨hfresh, hnodup'⟩ := List.nodup_cons.1 hnodup
              refine .gives (x := x) hf arg (by simp [Spot.instr]) (by simp [Spot.instr])
                (fun s _ _ _ => ?_) ?_
              · simp only [action, argument, Spot.instr, hf.fn, hi, Int.not_ofNat_neg, if_false,
                  Int.toNat_natCast, hget, Bind.bind, Except.bind, Pure.pure, Except.pure]
              have hf₁ := hf.past x
              have hvalue := Frame.value_past hf arg x
              have hsees₁ := hsees.later (.refl σ) hf₁.slots
              have hty₁ : ((f.past A.code.func p x).value p.count).Has A.table σ (A.type v.ty) := by
                rw [hvalue]
                exact hty
              refine (binding hA hf₁.stands hsees₁ bind
                (fun hmem => hfresh (List.mem_append_right _ hmem)) hty₁
                fun f₂ hf₂ hkeeps hsees₂ => ?_).mono (Nat.le_refl _)
              rw [hvalue] at hsees₂
              have hargs : f₂.args = f.args := hkeeps.args.trans hf₁.keeps.args
              refine (ih others (hargs ▸ hxs) ?_ hf₂ hsees₂ fun f' hf' hsees' => ?_).mono (by omega)
              · exact (List.perm_middle.nodup_iff).2 hnodup
              · refine h f' hf' ?_
                simpa using hsees'

end Activation

end Machine

/-! Functions -/

namespace Typed.Header

/-- The number of a parameter is its place behind the receiver. -/
theorem indexed_eq (h : Header) : h.indexed = h.declared.mapIdx fun j v =>
    (v, Int64.ofInt (j - if h.recv.isSome then 1 else 0)) := by
  unfold indexed declared
  cases h.recv with
  | none => simp [Int64.ofInt_eq_ofNat]
  | some v => simp [List.mapIdx_cons, Int64.ofInt_eq_ofNat]

theorem map_indexed (h : Header) : h.indexed.map (·.1) = h.declared := by
  refine List.ext_getElem? fun j => ?_
  rw [indexed_eq, List.getElem?_map, List.getElem?_mapIdx, Option.map_map]
  exact congrFun Option.map_id _

end Typed.Header

namespace Machine

variable {u : Typed.File} {g : Typed.Func} {ps : List TypeParam} {as : List Ty} {b : Typed.Block}
  {σ : Marks} {args : List Value}

/-- Each variable of a header has a number that leads to its argument. -/
theorem gets_indexed {A : Activation} {h : Typed.Header}
    (hargs : Values.Have A.table σ args (h.declared.map fun v => A.type v.ty))
    (hmethod : A.code.func.isMethod = h.recv.isSome) (hcount : h.declared.length < 2 ^ 63) :
    List.Forall₂ (A.Gets σ args) h.indexed args := by
  obtain ⟨hlen, htyped⟩ := List.forall₂_iff_get.1 hargs
  rw [List.length_map] at hlen
  rw [h.indexed_eq]
  refine List.forall₂_iff_get.2
    ⟨by rw [List.length_mapIdx, hlen], fun j hj hj' => ⟨⟨j, ?_, ?_⟩, ?_⟩⟩
  · rw [List.length_mapIdx] at hj
    simp only [List.get_eq_getElem, List.getElem_mapIdx, hmethod]
    rw [Int64.toInt_ofInt_of_le (by split <;> omega) (by split <;> omega)]
    omega
  · simp
  · simpa using htyped j hj' (by simpa using hj)

/-- A function that is called with arguments of its types follows its course, for as many steps as
there are rounds. -/
theorem follows_func (hu : u.Ok) (hsized : u.Sized) (hbinds : u.Binds g ps)
    (hground : u.table.Ground ps as) (hbody : g.body = some b)
    (hargs : Values.Have u.table σ args (g.header.declared.map fun v => v.ty.subst ps as)) (n : Nat)
    (outer : Option Waiting) : Follows u (g.header.sig.result.subst ps as) n σ
      (Direct.body u n g b args)
      (.start (Graph.Func.ofTyped (Layouts.build u.table) g b) args outer) := by
  obtain ⟨list⟩ := b
  have hmem := hbinds.mem
  have hok := hbinds.ok hu
  obtain ⟨hfinished, ⟨hparams, hstmts, hends⟩, dom, hgood⟩ := Graph.Func.exists_code hu hmem hbody
  obtain ⟨hname, -, -, hmethod⟩ := Graph.Func.ofTyped_head hu hmem hbody
  obtain ⟨vars', hbodyOk⟩ := hok.body _ hbody
  have hnodup : ((g.header.declared.map (·.pos)) ++ Typed.bindersAll list).Nodup := by
    have hbinders := hu.binders g hmem
    rw [Typed.Func.binders, hbody] at hbinders
    simpa [Typed.Header.declared, Typed.Block.binders, Function.comp_def] using hbinders
  have hcount : g.header.declared.length < 2 ^ 63 := by
    have hlt := hsized.vars g hmem
    rw [Typed.Func.binders, hbody] at hlt
    simp only [Typed.Header.declared, List.length_append, List.length_map] at hlt ⊢
    omega
  let A : Activation :=
    ⟨u, ps, as, Graph.Func.lowered (Layouts.build u.table) g (.mk list),
      g.header.sig.result.subst ps as, n⟩
  have hA : A.Valid := ⟨hu, hsized, hground, hfinished⟩
  refine .start hfinished hgood.wired.entry hgood.wired.zero_lt fun f hf hfargs hroom => ?_
  have hgets : List.Forall₂ (A.Gets σ f.args) g.header.indexed args :=
    hfargs.symm ▸ gets_indexed hargs hmethod hcount
  have hsees : A.Sees σ f [] [] := ⟨.nil, hroom⟩
  refine Activation.params_follow (A := A) hfinished hparams hgets ?_ hf hsees
    fun f₁ hf₁ hsees₁ => ?_
  · have hmap : g.header.indexed.map (·.1.pos) = g.header.declared.map (·.pos) := by
      rw [← g.header.map_indexed, List.map_map]
      rfl
    rw [hmap, List.map_nil, List.append_nil]
    exact (List.nodup_append.1 hnodup).1
  · have hnames : g.header.indexed.map (·.1.name) = g.header.declared.map (·.name) := by
      rw [← g.header.map_indexed, List.map_map]
      rfl
    rw [g.header.map_indexed, hnames, List.append_nil, List.append_nil] at hsees₁
    have hvars : (Typed.bindersAll list ++ g.header.vars.map (·.pos)).Nodup := by
      rw [Typed.Header.vars, List.map_reverse]
      exact ((List.reverse_perm _).append_left _).nodup_iff.2
        (List.nodup_append_comm.1 hnodup)
    obtain ⟨inner, rfl⟩ := hbodyOk.exists_append
    have hruns := Activation.Runs.block (Activation.runs_stmts (A := A) hA rfl hbodyOk hvars hstmts)
    have hcourse : Direct.body u n g (.mk list) args =
        (Direct.stmts A.setting (Direct.arguments g.header args) list >>= fun flow =>
          pure (flow.close (Direct.arguments g.header args))).andThen Direct.Flow.result := by
      rw [Direct.body, Direct.block, ← hname]
      rfl
    rw [hcourse]
    refine hruns (Nat.le_refl n) hf₁ hsees₁ (fun x => rfl)
      fun hreturns q hq σ₂ f₂ env₂ hσ₂ hf₂ _ _ => ?_
    have hvoid : g.header.sig.result.isVoid = true := by
      by_contra hvalue
      have hreturn : Typed.returnsAny list = true := hok.returns _ hbody (by simpa using hvalue)
      exact absurd (hreturn.symm.trans hreturns) (by simp)
    have hresult : g.header.sig.result.subst ps as = .void := by
      rw [Ty.eq_void hvoid]
      rfl
    have hnil : Value.nil.Has u.table σ₂ (g.header.sig.result.subst ps as) := hresult ▸ .nil
    exact .quits hf₂ (hends q hq) rfl hnil

end Machine

end ClassLang

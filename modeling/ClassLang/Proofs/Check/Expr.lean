import ClassLang.Proofs.Check.Infer

/-!
What the checker promises about expressions: one that passes without an error is
well typed.
-/

namespace ClassLang

namespace Constant

variable {a b c : Constant} {t : Ty}

theorem not_overflows {n : Int} (h : (Constant.int n).overflows = false) :
    minInt ≤ n ∧ n ≤ maxInt := by
  simpa [overflows] using h

theorem Fits.int {n : Int} (h : (Constant.int n).overflows = false) :
    (Constant.int n).Fits .int := not_overflows h

theorem Fits.unary {op : UnaryOp} (ha : a.Fits t) (h : Constant.unary op a = some c)
    (hrange : c.overflows = false) : c.Fits t := by
  cases a <;> cases t <;> simp only [Fits] at ha <;> cases op <;>
    simp only [Constant.unary, reduceCtorEq, Option.some.injEq] at h <;> subst h
  · exact not_overflows hrange
  · trivial
  · trivial

theorem orderTest_comparison {op : BinaryOp} {o : Ordering} {r : Bool}
    (h : orderTest op o = some r) : op.token.isComparison = true := by
  cases op <;> first | rfl | cases h

/-- The result of an operation on integers is an integer, or a truth value if it is
a comparison. -/
theorem Fits.binaryInt {op : BinaryOp} {m n : Int} (h : Constant.binaryInt op m n = some c)
    (hrange : c.overflows = false) : c.Fits (Check.BinaryOp.result op .int) := by
  unfold Constant.binaryInt at h
  split at h
  case h_6 =>
    obtain ⟨r, hr, rfl⟩ := Option.map_eq_some_iff.1 h
    simp [Check.BinaryOp.result, orderTest_comparison hr, Fits]
  all_goals
    obtain rfl := Option.some.inj h
    exact not_overflows hrange

theorem Fits.binaryFloat {op : BinaryOp} {p q : Rat}
    (h : Constant.binaryFloat op p q = some c) : c.Fits (Check.BinaryOp.result op .float) := by
  unfold Constant.binaryFloat at h
  split at h
  case h_5 =>
    obtain ⟨r, hr, rfl⟩ := Option.map_eq_some_iff.1 h
    simp [Check.BinaryOp.result, orderTest_comparison hr, Fits]
  all_goals
    obtain rfl := Option.some.inj h
    trivial

theorem Fits.binary {op : BinaryOp} (ha : a.Fits t) (hb : b.Fits t)
    (h : Constant.binary op a b = some c) (hrange : c.overflows = false) :
    c.Fits (Check.BinaryOp.result op t) := by
  cases a <;> cases t <;> simp only [Fits] at ha <;> cases b <;> simp only [Fits] at hb
  · exact Fits.binaryInt h hrange
  · exact Fits.binaryFloat h
  · cases op <;> simp only [Constant.binary, reduceCtorEq, Option.some.injEq] at h <;>
      subst h <;> trivial
  · cases op <;> simp only [Constant.binary, reduceCtorEq, Option.some.injEq] at h <;>
      subst h <;> trivial

end Constant

namespace Check

variable {w : Watch} {P C : Prop} {env : Env} {consts : ConstSource} {Δ : List TypeParam} {vars : List Var}
  {funcs : List (String × Bool × Signature)}

/-- What an expression in the environment `env` is typed against. -/
abbrev Env.context (env : Env) (funcs : List (String × Bool × Signature)) (Δ : List TypeParam) :
    Typed.Context := ⟨env.table, funcs, Δ⟩

/-- The names of an environment stand for what they do in a context where the
variables `vars` are visible. -/
structure EnvOk (env : Env) (funcs : List (String × Bool × Signature)) (Δ : List TypeParam)
    (vars : List Var) : Prop where
  sound : (env.context funcs Δ).Sound
  collected : env.collecting = false
  types : env.TypesIn Δ
  basic : env.BasicIn
  func : ∀ name id host sig, env.lookup name = some (.func id host) →
    env.funcs.lookup name = some sig → id.text = name ∧ funcs.lookup name = some (host, sig)
  cls : ∀ name id, env.lookup name = some (.cls id) → id.text = name
  var : ∀ name v, env.lookup name = some (.var v) → vars.find? (·.name = name) = some v ∧
    v.ty.Scoped env.table.arity Δ ∧ v.ty.isVoid = false

/-- Where `C` holds, the constants have values of their types. -/
def ConstsOk (consts : ConstSource) (C : Prop) : Prop :=
  ∀ name, Ensures (consts name) C fun r => ∀ e ∈ r, e.2.Fits e.1

/-! Expressions without parts -/

theorem inRange_ensures {pos : Pos} {c : Constant} {e : Typed.Expr} :
    w.Ensures (inRange pos c e) P fun r => ∀ x ∈ r, x = e ∧ c.overflows = false := by
  unfold inRange
  split
  next => exact .fail
  next hrange =>
    refine .pure fun _ x hx => ?_
    obtain rfl := Option.mem_some.1 hx
    exact ⟨rfl, by simpa using hrange⟩

theorem name_ensures (hconsts : ConstsOk consts C) {id : Ident} :
    Ensures (name env consts id) (EnvOk env funcs Δ vars ∧ C) fun r =>
      ∀ x ∈ r, x.Ok (env.context funcs Δ) vars := by
  unfold name
  split
  next => exact .fail
  next v hv =>
    refine .pure fun h x hx => ?_
    split at hx
    next => cases hx
    next =>
      obtain rfl := Option.mem_some.1 hx
      obtain ⟨hfound, hknown, hvoid⟩ := h.1.var _ _ hv
      exact .var hfound hknown hvoid
  next b _ =>
    refine .pure fun _ x hx => ?_
    obtain rfl := Option.mem_some.1 hx
    exact .const trivial
  next c _ =>
    refine ((hconsts c.text).imp And.right fun _ _ h => h).bind fun r => ?_
    split
    next ty value =>
      refine .pure fun h x hx => ?_
      obtain rfl := Option.mem_some.1 hx
      exact .const (h.2 _ rfl)
    next => exact .pure fun _ x hx => by cases hx
  next => exact .fail
  next => exact .fail
  next => exact .fail

theorem literal_ensures {Γ : Typed.Context} {pos : Pos} {kind : LitKind} {text : String} :
    Ensures (literal pos kind text) P fun r => ∀ x ∈ r, x.Ok Γ vars := by
  unfold literal
  split
  next =>
    split
    next => exact .fail
    next n _ =>
      refine inRange_ensures.imp id fun _ r hr x hx => ?_
      obtain ⟨rfl, hrange⟩ := hr x hx
      exact .literal (Constant.Fits.int hrange)
  next =>
    split
    next => exact .fail
    next q _ =>
      refine .pure fun _ x hx => ?_
      obtain rfl := Option.mem_some.1 hx
      exact .literal trivial
  next =>
    refine .pure fun _ x hx => ?_
    obtain rfl := Option.mem_some.1 hx
    exact .literal trivial

/-! Operators -/

theorem unaryOp_ensures {Γ : Typed.Context} {pos : Pos} {op : UnaryOp} {x : Operand} :
    Ensures (unaryOp pos op x) (x.expr.Ok Γ vars) fun r => ∀ e ∈ r, e.Ok Γ vars := by
  have known {c : Constant} (hdefined : Typed.unaryDefined op x.ty = true)
      (hc : x.expr.value?.bind (Constant.unary op) = some c) :
      Ensures (inRange pos c (.unary pos op x.expr x.ty (some c))) (x.expr.Ok Γ vars)
        fun r => ∀ e ∈ r, e.Ok Γ vars := by
    refine inRange_ensures.imp id fun h r hr e he => ?_
    obtain ⟨rfl, hrange⟩ := hr e he
    obtain ⟨a, ha, hunary⟩ := Option.bind_eq_some_iff.1 hc
    refine .unary h hdefined (fun c' hc' => ?_) hc.symm
    obtain rfl := Option.mem_some.1 hc'
    exact (h.value_fits ha).unary hunary hrange
  have unknown (hdefined : Typed.unaryDefined op x.ty = true)
      (hnone : x.expr.value?.bind (Constant.unary op) = none) :
      Ensures (pure (some (Typed.Expr.unary pos op x.expr x.ty none))) (x.expr.Ok Γ vars)
        fun r => ∀ e ∈ r, e.Ok Γ vars := by
    refine .pure fun h e he => ?_
    obtain rfl := Option.mem_some.1 he
    exact .unary h hdefined (fun c hc => by cases hc) hnone.symm
  unfold unaryOp
  refine hasValue_ensures.bind fun ok => ?_
  split
  next => exact .pure fun _ e he => by cases he
  next =>
    cases op <;> dsimp only <;> split
    next => exact .fail
    next hdefined =>
      have hdefined : Typed.unaryDefined .not x.ty = true := by simpa [Typed.unaryDefined] using hdefined
      split
      next hc => exact (known hdefined hc).imp And.left fun _ _ h => h
      next hnone => exact (unknown hdefined hnone).imp And.left fun _ _ h => h
    next => exact .fail
    next hdefined =>
      have hdefined : Typed.unaryDefined .neg x.ty = true := by simpa [Typed.unaryDefined] using hdefined
      split
      next hc => exact (known hdefined hc).imp And.left fun _ _ h => h
      next hnone => exact (unknown hdefined hnone).imp And.left fun _ _ h => h

theorem binaryOp_ensures {Γ : Typed.Context} {op : BinaryOp} {x y : Operand} :
    Ensures (binaryOp op x y) (Γ.Sound ∧ x.expr.Ok Γ vars ∧ y.expr.Ok Γ vars) fun r =>
      ∀ e ∈ r, e.Ok Γ vars := by
  unfold binaryOp
  refine hasValue_ensures.bind fun ok => ?_
  split
  next => exact .pure fun _ e he => by cases he
  next =>
    refine hasValue_ensures.bind fun ok => ?_
    split
    next => exact .pure fun _ e he => by cases he
    next =>
      dsimp only
      split
      next => exact .fail
      next hsame =>
        split
        next => exact .fail
        next hdefined =>
          have hdefined : BinaryOp.defined op x.ty = true := by simpa using hdefined
          have hsame : x.ty.identical y.ty = true := by simpa using hsame
          have same (hΓ : Γ.Sound) (hx : x.expr.Ok Γ vars) (hy : y.expr.Ok Γ vars) :
              x.expr.ty = y.expr.ty :=
            (hx.scoped hΓ).eq_of_identical (hy.scoped hΓ) hsame
          have unknown (hfold : Constant.fold op x.expr.value? y.expr.value? = none)
              (hdivisor : ∀ a ∈ x.expr.value?, ∀ b ∈ y.expr.value?, op = .div ∨ op = .rem →
                b.isZero = false)
              (h : Γ.Sound ∧ x.expr.Ok Γ vars ∧ y.expr.Ok Γ vars) : ∀ e ∈ some
              (Typed.Expr.binary op x.expr y.expr (BinaryOp.result op x.ty) none), e.Ok Γ vars := by
            intro e he
            obtain ⟨hΓ, hx, hy⟩ := h
            obtain rfl := Option.mem_some.1 he
            exact .binary hx hy (same hΓ hx hy) hdefined (fun c hc => by cases hc) hfold.symm hdivisor
          split
          next a b ha hb =>
            have hfold : Constant.fold op x.expr.value? y.expr.value? = Constant.binary op a b := by
              rw [ha, hb]
              rfl
            split
            next => exact .fail
            next hzero =>
              have hdivisor : ∀ a ∈ x.expr.value?, ∀ b ∈ y.expr.value?, op = .div ∨ op = .rem →
                  b.isZero = false := by
                intro a' _ b' hb' hop
                obtain rfl : b = b' := Option.some.inj (hb.symm.trans hb')
                simpa [hop] using hzero
              split
              next c hc =>
                refine inRange_ensures.imp id fun h r hr e he => ?_
                obtain ⟨⟨⟨hΓ, hx, hy⟩, _⟩, _⟩ := h
                obtain ⟨rfl, hrange⟩ := hr e he
                refine .binary hx hy (same hΓ hx hy) hdefined (fun c' hc' => ?_)
                  (by rw [hfold, hc]) hdivisor
                obtain rfl := Option.mem_some.1 hc'
                have hfits := hy.value_fits hb
                rw [← same hΓ hx hy] at hfits
                exact (hx.value_fits ha).binary hfits hc hrange
              next hnone => exact .pure fun h => unknown (hfold.trans hnone) hdivisor h.1.1
          next hunknown =>
            refine .pure fun h => unknown ?_ (fun a ha b hb => (hunknown a b ha hb).elim) h.1.1
            cases ha : x.expr.value? with
            | none => rfl
            | some a =>
                cases hb : y.expr.value? with
                | none => rfl
                | some b => exact (hunknown a b ha hb).elim

/-! Members -/

/-- A member is seen with the type arguments of the receiver filled in. -/
theorem seen_eq {α : Type} {ty : Ty} {g : List Ty → α} {own : α} :
    (ty.args = [] → own = g []) → (match ty with
      | .inst _ targs => g targs
      | _ => own) = g ty.args := by
  intro h
  cases ty <;> first | rfl | exact h rfl

theorem tparams_of_args {t : Table} {ty : Ty} {c : ClassInfo} (hty : ty.Scoped t.arity Δ)
    (hc : t.classOf? ty = some c) (hargs : ty.args = []) : c.tparams = [] := by
  have hlen := (Table.classOf?_args hty hc).1
  rw [hargs] at hlen
  exact List.length_eq_zero_iff.1 hlen.symm

theorem selection_ensures {x : Operand} {sel : Ident} :
    Ensures (selection env x sel)
      (x.expr.Ok (env.context funcs Δ) vars ∧ (env.context funcs Δ).Sound) fun r =>
      ∀ e ∈ r, e.Ok (env.context funcs Δ) vars := by
  unfold selection
  refine hasValue_ensures.bind fun ok => ?_
  split
  next => exact .pure fun _ e he => by cases he
  next =>
    dsimp only
    split
    next => exact .fail
    next =>
      split
      next => exact .fail
      next c hc =>
        split
        next f hf =>
          refine .pure fun h e he => ?_
          obtain ⟨⟨hx, hΓ⟩, _⟩ := h
          obtain rfl := Option.mem_some.1 he
          refine (congrArg (fun ty => (Typed.Expr.field x.expr sel f ty).Ok _ vars)
            (seen_eq (g := fun targs => f.ty.subst c.tparams targs) fun hargs => ?_)).mpr
            (.field hx hc hf)
          rw [tparams_of_args (hx.scoped hΓ) hc hargs, Ty.subst_nil]
        next =>
          split
          next => exact .fail
          next => exact .fail

theorem arguments_ensures {pos : Pos} {callee : String} {sig : Signature} {args : List Operand} :
    w.Ensures (arguments env pos callee sig args) P fun ok =>
      ok = true → args.length = sig.params.length ∧
        ∀ e ∈ args.zip sig.paramTypes, Assignable env.table e.1.ty e.2 := by
  unfold arguments
  split
  next => exact .report_bind (.pure False.elim)
  next hlen =>
    refine assignableAll_ensures.imp id fun _ ok hok h => ⟨by simpa using hlen, fun e he => ?_⟩
    exact hok h _ (List.mem_map.2 ⟨e, he, rfl⟩)

/-- Operands that can be assigned to the parameters fit them. -/
theorem fit_of_assignable {t : Table} {Γ : Typed.Context} (hΓ : Γ.Sound) {xs : List Operand}
    {ts : List Ty} (hxs : ∀ x ∈ xs, x.expr.Ok Γ vars) (hts : ∀ ty ∈ ts, ty.Scoped Γ.table.arity Δ)
    (h : ∀ e ∈ xs.zip ts, Assignable t e.1.ty e.2) :
    ∀ e ∈ (xs.map (·.expr)).zip ts, t.Fits e.1.ty e.2 := by
  intro e he
  rw [List.zip_map_left] at he
  obtain ⟨⟨x, ty⟩, hmem, rfl⟩ := List.mem_map.1 he
  have hx := List.of_mem_zip hmem
  exact (h _ hmem).fits ((hxs x hx.1).scoped hΓ) (hts ty hx.2)

theorem funcCall_ensures {fn id : Ident} {host : Bool} {sig : Signature}
    {args : Option (List Operand)} :
    Ensures (funcCall env fn (.func id host) sig args)
      ((env.context funcs Δ).Sound ∧ env.collecting = false ∧ id.text = fn.text ∧
        funcs.lookup fn.text = some (host, sig) ∧
        ∀ xs ∈ args, ∀ x ∈ xs, x.expr.Ok (env.context funcs Δ) vars) fun r =>
      ∀ e ∈ r, e.Ok (env.context funcs Δ) vars := by
  unfold funcCall
  split
  next => exact .pure fun _ e he => by cases he
  next args =>
    dsimp only
    refine Watch.Ensures.ite_bind (Q := fun r => ∀ targs ∈ r,
      (env.context funcs Δ).Instance sig.tparams targs) (fun hempty => ?_) (fun _ => ?_)
      fun r => ?_
    · refine .pure fun _ targs htargs => ?_
      obtain rfl := Option.mem_some.1 htargs
      have hnil : sig.tparams = [] := by simpa using hempty
      exact ⟨by simp [hnil], by simp [Ty.ScopedAll], by simp [hnil]⟩
    · refine (infer_ensures env.table.arity Δ).imp (fun h => ⟨h.2.1, fun x hx =>
        (h.2.2.2.2 args rfl x hx).scoped h.1⟩) fun _ r hr targs htargs => ?_
      obtain ⟨hlen, hknown, hadmits⟩ := hr targs htargs
      exact ⟨hlen, hknown, hadmits⟩
    · split
      next => exact .pure fun _ e he => by cases he
      next targs =>
        refine arguments_ensures.bind fun ok => ?_
        split
        next hok =>
          refine .pure fun h e he => ?_
          obtain ⟨⟨⟨hΓ, _, hname, hfunc, hargs⟩, hinst⟩, hfit⟩ := h
          obtain ⟨hlen, hfit⟩ := hfit hok
          obtain rfl := Option.mem_some.1 he
          have hinst := hinst targs rfl
          have hsig := (hΓ.funcs _ _ _ hfunc).params_subst hinst.length hinst.known
          have hxs := hargs args rfl
          refine .call hfunc hname hinst ?_ (fun x hx => ?_) (fit_of_assignable hΓ hxs hsig hfit)
          · simpa [Signature.length_subst] using hlen
          · obtain ⟨y, hy, rfl⟩ := List.mem_map.1 hx
            exact hxs y hy
        next => exact .pure fun _ e he => by cases he

/-- The method that a call on `x` selects: one of the class of `x`, or of the bound
of its type parameter. -/
def Selects (t : Table) (x : Typed.Expr) (sel : Ident) (kind : CallKind) (m : Method)
    (sig : Signature) : Prop :=
  (∃ c, t.classOf? x.ty = some c ∧ t.lookupMethod c.id sel.text = some m ∧
    kind = dispatch t c.id sel.text ∧ sig = m.sig.subst c.tparams x.ty.args) ∨
  ∃ p b, x.ty = .param p ∧ p.bound.bind t.boundNamed? = some b ∧
    b.method? sel.text = some m ∧ kind = .bound ∧ sig = m.sig

theorem target_ensures {x : Operand} {sel : Ident} :
    Ensures (target env x sel)
      (x.expr.Ok (env.context funcs Δ) vars ∧ (env.context funcs Δ).Sound) fun r =>
      ∀ found ∈ r, Selects env.table x.expr sel found.1 found.2.1 found.2.2 := by
  unfold target
  dsimp only
  split
  next p hp =>
    split
    next => exact .fail
    next b hb =>
      split
      next m hm =>
        refine .pure fun _ found hfound => ?_
        obtain rfl := Option.mem_some.1 hfound
        exact .inr ⟨p, b, hp, hb, hm, rfl, rfl⟩
      next => exact .fail
  next =>
    split
    next => exact .fail
    next c hc =>
      split
      next => exact .fail
      next m hm =>
        refine .pure fun h found hfound => ?_
        obtain rfl := Option.mem_some.1 hfound
        refine .inl ⟨c, hc, hm, rfl, seen_eq (g := fun targs => m.sig.subst c.tparams targs)
          fun hargs => ?_⟩
        rw [tparams_of_args (h.1.scoped h.2) hc hargs, Signature.subst_nil]

/-- The parameters of a method that a call selects have known types. -/
theorem Selects.params_scoped {Γ : Typed.Context} (hΓ : Γ.Sound) {x : Typed.Expr} {sel : Ident}
    {kind : CallKind} {m : Method} {sig : Signature} (hx : x.Ok Γ vars)
    (h : Selects Γ.table x sel kind m sig) :
    ∀ ty ∈ sig.paramTypes, ty.Scoped Γ.table.arity Γ.tparams := by
  obtain ⟨c, hc, hm, _, hsig⟩ | ⟨p, b, _, hb, hm, _, hsig⟩ := h
  · obtain ⟨hlen, hargs⟩ := Table.classOf?_args (hx.scoped hΓ) hc
    have hclass := hΓ.table.linked.class?_id (Table.classOf?_mem hc)
    obtain ⟨_, hscoped, _⟩ := hΓ.table.lookupMethod_scoped hclass hm
    rw [hsig]
    exact hscoped.params_subst hlen hargs
  · obtain ⟨_, _, hb⟩ := Option.bind_eq_some_iff.1 hb
    have hscoped := hΓ.table.bounds b (List.mem_of_find?_eq_some hb) _
      (List.mem_of_find?_eq_some hm)
    rw [hsig]
    exact fun ty hty => (hscoped.1.1 ty hty).1.mono (by simp)

theorem methodCall_ensures {x : Operand} {sel : Ident} {kind : CallKind} {m : Method}
    {sig : Signature} {args : Option (List Operand)} :
    Ensures (methodCall env x sel (kind, m, sig) args)
      ((env.context funcs Δ).Sound ∧ x.expr.Ok (env.context funcs Δ) vars ∧
        Selects env.table x.expr sel kind m sig ∧
        ∀ xs ∈ args, ∀ y ∈ xs, y.expr.Ok (env.context funcs Δ) vars) fun r =>
      ∀ e ∈ r, e.Ok (env.context funcs Δ) vars := by
  unfold methodCall
  dsimp only
  split
  next => exact .pure fun _ e he => by cases he
  next args =>
    refine arguments_ensures.bind fun ok => ?_
    split
    next hok =>
      refine .pure fun h e he => ?_
      obtain ⟨⟨hΓ, hx, hsel, hargs⟩, hfit⟩ := h
      obtain ⟨hlen, hfit⟩ := hfit hok
      obtain rfl := Option.mem_some.1 he
      have hxs := hargs args rfl
      have hfit := fit_of_assignable hΓ hxs (hsel.params_scoped hΓ hx) hfit
      have hoperands : ∀ y ∈ args.map (·.expr), y.Ok (env.context funcs Δ) vars := by
        intro y hy
        obtain ⟨z, hz, rfl⟩ := List.mem_map.1 hy
        exact hxs z hz
      obtain ⟨c, hc, hm, rfl, rfl⟩ | ⟨p, b, hp, hb, hm, rfl, rfl⟩ := hsel
      · exact .invoke hx hc hm (by simpa [Signature.length_subst] using hlen) hoperands hfit
      · exact .invokeBound hx hp hb hm (by simpa using hlen) hoperands hfit
    next => exact .pure fun _ e he => by cases he

/-! Initializers -/

/-- The elements `xs` that an initializer has taken so far: each for a field of its
own. -/
structure Filled (fields : List Field) (filling : Filling) (xs : List (Ident × Operand)) :
    Prop where
  given : filling.given = xs.map fun e => (e.1.text, e.2)
  nodup : (xs.map (·.1.text)).Nodup
  known : ∀ e ∈ xs, e.1.text ∈ fields.map (·.name)

theorem fillField_ensures {cls : String} {fields : List Field} {filling : Filling} {key : Ident}
    {value : Option Operand} (xs : List (Ident × Operand)) :
    w.Ensures (fillField cls fields filling key value)
      (filling.ok = true → Filled fields filling xs) fun r => r.ok = true →
      filling.ok = true ∧ ∃ x, value = some x ∧ Filled fields r (xs ++ [(key, x)]) := by
  unfold fillField
  dsimp only
  split
  next => exact .report_bind (.pure False.elim)
  next hknown =>
    split
    next => exact .report_bind (.pure False.elim)
    next hnew =>
      split
      next => exact .pure fun _ h => by cases h
      next x =>
        refine hasValue_ensures.bind fun ok => .pure fun h hok => ?_
        have hfilling : filling.ok = true := by simp_all
        have hfilled := h.1 hfilling
        refine ⟨hfilling, x, rfl, by simp [hfilled.given], ?_, ?_⟩
        · rw [List.map_append]
          refine List.nodup_append.2 ⟨hfilled.nodup, by simp, ?_⟩
          rintro a ha b hb rfl
          obtain ⟨e, he, rfl⟩ := List.mem_map.1 ha
          refine hnew (List.any_eq_true.2 ⟨(e.1.text, e.2), ?_, by simpa using hb⟩)
          rw [hfilled.given]
          exact List.mem_map_of_mem he
        · intro e he
          rcases List.mem_append.1 he with he | he
          · exact hfilled.known e he
          · obtain rfl := List.mem_singleton.1 he
            simpa using hknown

theorem lookup_map_of_nodup {α β : Type} (key : α → String) {value : α → β} {l : List α}
    (h : (l.map key).Nodup) {a : α} (ha : a ∈ l) :
    (l.map fun e => (key e, value e)).lookup (key a) = some (value a) := by
  induction l with
  | nil => cases ha
  | cons b rest ih =>
      rw [List.map_cons, List.nodup_cons] at h
      rcases List.mem_cons.1 ha with rfl | ha
      · simp
      · have hne : key a ≠ key b := fun heq => h.1 (heq ▸ List.mem_map_of_mem ha)
        rw [List.map_cons, List.lookup_cons, beq_eq_false_iff_ne.2 hne]
        exact ih h.2 ha

theorem mem_zip_filterMap {α β : Type} {g : α → Option β} {l : List α}
    (h : ∀ a ∈ l, (g a).isSome = true) {a : α} {b : β} (ha : a ∈ l) (hb : g a = some b) :
    (a, b) ∈ l.zip (l.filterMap g) := by
  induction l with
  | nil => cases ha
  | cons c rest ih =>
      obtain ⟨d, hd⟩ := Option.isSome_iff_exists.1 (h c (by simp))
      rw [List.filterMap_cons_some hd, List.zip_cons_cons]
      rcases List.mem_cons.1 ha with rfl | ha
      · simp [Option.some.inj (hd.symm.trans hb)]
      · exact List.mem_cons_of_mem _ (ih (fun a ha => h a (List.mem_cons_of_mem _ ha)) ha)

namespace Filled

variable {fields : List Field} {filling : Filling} {xs : List (Ident × Operand)}

theorem lookup (h : Filled fields filling xs) {e : Ident × Operand} (he : e ∈ xs) :
    filling.given.lookup e.1.text = some e.2 := by
  rw [h.given]
  exact lookup_map_of_nodup (·.1.text) h.nodup he

theorem mem_of_lookup (h : Filled fields filling xs) {name : String} {x : Operand}
    (hx : filling.given.lookup name = some x) : ∃ e ∈ xs, e.1.text = name ∧ e.2 = x := by
  have hmem : (name, x) ∈ filling.given := Check.mem_of_lookup hx
  rw [h.given] at hmem
  obtain ⟨e, he, heq⟩ := List.mem_map.1 hmem
  cases heq
  exact ⟨e, he, rfl, rfl⟩

/-- When no field is missing, the elements name the fields in some order. -/
theorem perm (h : Filled fields filling xs) (hfields : (fields.map (·.name)).Nodup)
    (hcomplete : ∀ f ∈ fields, (filling.given.lookup f.name).isSome = true) :
    (xs.map (·.1.text)).Perm (fields.map (·.name)) := by
  refine (List.perm_ext_iff_of_nodup h.nodup hfields).2 fun name => ⟨fun hname => ?_, fun hname => ?_⟩
  · obtain ⟨e, he, rfl⟩ := List.mem_map.1 hname
    exact h.known e he
  · obtain ⟨f, hf, rfl⟩ := List.mem_map.1 hname
    obtain ⟨x, hx⟩ := Option.isSome_iff_exists.1 (hcomplete f hf)
    obtain ⟨e, he, heq, _⟩ := h.mem_of_lookup hx
    exact List.mem_map.2 ⟨e, he, heq⟩

end Filled

theorem lookup_isSome_of_any {l : List (String × Operand)} {name : String}
    (h : l.any (·.1 = name) = true) : (l.lookup name).isSome = true := by
  rw [Option.isSome_iff_ne_none, ne_eq, List.lookup_eq_none_iff]
  intro hnone
  obtain ⟨e, he, hname⟩ := List.any_eq_true.1 h
  have hne := hnone e he
  simp_all

theorem initialized_ensures {cls id : Ident} {c : ClassInfo} {filling : Filling}
    {elems : List (Ident × Typed.Expr)} :
    Ensures (initialized env cls (.cls id) c filling elems)
      ((env.context funcs Δ).Sound ∧ env.collecting = false ∧
        env.table.classNamed? cls.text = some c ∧
        (filling.ok = true → ∃ xs, Filled (env.table.flatFields c.id) filling xs ∧
          elems = xs.map (fun e => (e.1, e.2.expr)) ∧
          ∀ e ∈ xs, e.2.expr.Ok (env.context funcs Δ) vars)) fun r =>
      ∀ e ∈ r, e.Ok (env.context funcs Δ) vars := by
  unfold initialized
  dsimp only
  split
  next => exact .report_bind (.pure False.elim)
  next hmissing =>
    have hcomplete : ∀ f ∈ env.table.flatFields c.id,
        (filling.given.lookup f.name).isSome = true := by
      intro f hf
      refine lookup_isSome_of_any ?_
      by_contra hnot
      have hmem : f ∈ (env.table.flatFields c.id).filter fun f =>
        !filling.given.any (·.1 = f.name) := List.mem_filter.2 ⟨hf, by simpa only [Bool.not_eq_true, Bool.not_eq_true'] using hnot⟩
      simp only [Bool.not_eq_true', Bool.not_eq_false, List.isEmpty_iff] at hmissing
      rw [hmissing] at hmem
      cases hmem
    split
    next => exact .pure fun _ e he => by cases he
    next hok =>
      have hok : filling.ok = true := by simpa using hok
      refine Watch.Ensures.ite_bind (Q := fun r => ∀ targs ∈ r,
        (env.context funcs Δ).Instance c.tparams targs) (fun _ => ?_) (fun hplain => ?_)
        fun r => ?_
      · refine (infer_ensures env.table.arity Δ).imp
          (fun h => ⟨h.2.1, fun x hx => ?_⟩) fun _ r hr targs htargs => ?_
        · obtain ⟨hΓ, _, _, hfilled⟩ := h
          obtain ⟨xs, hxs, _, hall⟩ := hfilled hok
          obtain ⟨f, _, hf⟩ := List.mem_filterMap.1 hx
          obtain ⟨e, he, _, rfl⟩ := hxs.mem_of_lookup hf
          exact (hall e he).scoped hΓ
        · obtain ⟨hlen, hknown, hadmits⟩ := hr targs htargs
          exact ⟨hlen, hknown, hadmits⟩
      · refine .pure fun _ targs htargs => ?_
        obtain rfl := Option.mem_some.1 htargs
        have hnil : c.tparams = [] := by simpa [ClassInfo.isGeneric] using hplain
        exact ⟨by simp [hnil], by simp [Ty.ScopedAll], by simp [hnil]⟩
      · split
        next => exact .pure fun _ e he => by cases he
        next targs =>
          refine assignableAll_ensures.bind fun fits => ?_
          split
          next hfits =>
            refine .pure fun h e he => ?_
            obtain ⟨⟨⟨hΓ, _, hclass, hfilled⟩, hinst⟩, hall⟩ := h
            obtain ⟨xs, hxs, rfl, hok⟩ := hfilled hok
            obtain rfl := Option.mem_some.1 he
            have hinst := hinst targs rfl
            have hid := hΓ.table.linked.class?_id (List.mem_of_find?_eq_some hclass)
            have hnodup := hΓ.table.flatFields_nodup (Table.class?_eq_some_lt hid)
            refine .init hclass hinst ?_ ?_ ?_
            · simpa [Function.comp_def] using hxs.perm hnodup hcomplete
            · intro e he
              obtain ⟨x, hx, rfl⟩ := List.mem_map.1 he
              exact hok x hx
            · intro e he f hf hname
              obtain ⟨x, hx, rfl⟩ := List.mem_map.1 he
              have hlookup := hxs.lookup hx
              rw [← hname] at hlookup
              have hmem := mem_zip_filterMap hcomplete hf hlookup
              have hassign := hall hfits _ (List.mem_map.2 ⟨_, hmem, rfl⟩)
              have hfield := hΓ.table.lookupField_scoped hid
                (hΓ.table.lookupField_eq (Table.class?_eq_some_lt hid) hf)
              exact hassign.fits ((hok x hx).scoped hΓ)
                (hfield.2.1.subst hinst.length hinst.known)
          next => exact .pure fun _ e he => by cases he

/-! All expressions -/

/-- What is looked at only for its errors promises nothing. -/
theorem ignored {α β : Type} {m : Check α} {P' : Prop} {R : α → Prop} {Q : Option β → Prop}
    (h : w.Ensures m P' R) (hp : P → P') (hnone : Q none) :
    w.Ensures (do discard m; return (none : Option β)) P Q :=
  Watch.Ensures.bind (.discard (Q := fun _ => True) (h.imp hp fun _ _ _ => trivial)) fun _ =>
    .pure fun _ => hnone

mutual

/-- An expression that passes is well typed. -/
theorem expr_ensures (hconsts : ConstsOk consts C) : (e : Expr) →
    Ensures (expr env consts e) (EnvOk env funcs Δ vars ∧ C) fun r =>
      ∀ x ∈ r, x.Ok (env.context funcs Δ) vars
  | .name id => by
    unfold expr
    exact name_ensures hconsts
  | .literal pos kind text => by
    unfold expr
    exact literal_ensures
  | .unary pos op x => by
    unfold expr
    refine (operand_ensures hconsts x).bind fun r => ?_
    split
    next => exact .pure fun _ e he => by cases he
    next x => exact unaryOp_ensures.imp (fun h => h.2 x rfl) fun _ _ h => h
  | .binary op x y => by
    unfold expr
    refine (operand_ensures hconsts x).bind fun r => ?_
    refine ((operand_ensures hconsts y).imp And.left fun _ _ h => h).bind fun r' => ?_
    split
    next x y =>
      exact binaryOp_ensures.imp (fun h => ⟨h.1.1.1.sound, h.1.2 x rfl, h.2 y rfl⟩) fun _ _ h => h
    next =>
      refine Watch.Ensures.bind (.discard (Q := fun _ => True) (hasValue_ensures.imp id
        fun _ _ _ => trivial)) fun _ => ?_
      exact .pure fun _ e he => by cases he
    next => exact .pure fun _ e he => by cases he
  | .call (.name fn) args => by
    unfold expr
    split
    next id host hlookup =>
      refine (operands_ensures hconsts args).bind fun xs => ?_
      split
      next sig hsig =>
        refine funcCall_ensures.imp (fun h => ?_) fun _ _ h => h
        obtain ⟨⟨henv, _⟩, hxs⟩ := h
        obtain ⟨hname, hfunc⟩ := henv.func _ _ _ _ hlookup hsig
        exact ⟨henv.sound, henv.collected, hname, hfunc, hxs⟩
      next => exact .pure fun _ e he => by cases he
    next =>
      dsimp only
      split
      next => exact .report_bind (ignored (operands_ensures hconsts args) False.elim (by simp))
      next => exact .report_bind (ignored (operands_ensures hconsts args) False.elim (by simp))
  | .call (.select x sel) args => by
    unfold expr
    refine (operand_ensures hconsts x).bind fun r => ?_
    split
    next => exact ignored (operands_ensures hconsts args) And.left (by simp)
    next x =>
      refine hasValue_ensures.bind fun ok => ?_
      split
      next =>
        exact ignored (operands_ensures hconsts args) (fun h => h.1.1) (by simp)
      next =>
        refine (target_ensures.imp (fun h => ⟨h.1.2 x rfl, h.1.1.1.sound⟩) fun _ _ h => h).bind
          fun found => ?_
        split
        next =>
          exact ignored (operands_ensures hconsts args) (fun h => h.1.1.1) (by simp)
        next found =>
          refine ((operands_ensures hconsts args).imp (fun h => h.1.1.1) fun _ _ h => h).bind
            fun xs => ?_
          refine methodCall_ensures.imp (fun h => ?_) fun _ _ h => h
          obtain ⟨⟨⟨⟨⟨henv, _⟩, hx⟩, _⟩, hfound⟩, hxs⟩ := h
          exact ⟨henv.sound, hx x rfl, hfound found rfl, hxs⟩
  | .call (.literal ..) args | .call (.unary ..) args | .call (.binary ..) args
  | .call (.call ..) args | .call (.init ..) args | .call (.paren ..) args => by
    unfold expr
    exact .report_bind (ignored (operands_ensures hconsts args) False.elim (by simp))
  | .select x sel => by
    unfold expr
    refine (operand_ensures hconsts x).bind fun r => ?_
    split
    next => exact .pure fun _ e he => by cases he
    next x => exact selection_ensures.imp (fun h => ⟨h.2 x rfl, h.1.1.sound⟩) fun _ _ h => h
  | .init cls elems => by
    unfold expr
    split
    next id hlookup =>
      split
      next c hc =>
        refine ((elements_ensures hconsts [] elems).imp (fun h => ⟨h, fun _ =>
          ⟨rfl, by simp, by simp⟩⟩) fun _ _ h => h).bind fun r => ?_
        refine initialized_ensures.imp (fun h => ?_) fun _ _ h => h
        obtain ⟨⟨henv, _⟩, hr⟩ := h
        rw [henv.cls _ _ hlookup] at hc
        refine ⟨henv.sound, henv.collected, hc, fun hok => ?_⟩
        obtain ⟨_, ys, hfilled, helems, hys⟩ := hr hok
        exact ⟨ys, hfilled, helems, hys⟩
      next => exact .pure fun _ e he => by cases he
    all_goals
      refine .report_bind (((elementValues_ensures hconsts elems).imp False.elim
        fun h => h.elim).bind (Q := fun _ => False) fun _ => ?_)
      exact .pure fun h => h.2.elim
  | .paren pos x => by
    unfold expr
    refine (expr_ensures hconsts x).bind fun r => ?_
    split
    next => exact .pure fun _ e he => by cases he
    next x =>
      refine .pure fun h e he => ?_
      obtain rfl := Option.mem_some.1 he
      exact .paren (h.2 x rfl)
termination_by e => (sizeOf e, 0)
decreasing_by
  all_goals
    simp only [Prod.lex_def, Expr.unary.sizeOf_spec, Expr.binary.sizeOf_spec,
      Expr.call.sizeOf_spec, Expr.select.sizeOf_spec, Expr.init.sizeOf_spec, Expr.paren.sizeOf_spec]
    omega

theorem operand_ensures (hconsts : ConstsOk consts C) : (e : Expr) →
    Ensures (operand env consts e) (EnvOk env funcs Δ vars ∧ C) fun r =>
      ∀ x ∈ r, x.expr.Ok (env.context funcs Δ) vars
  | e => by
    unfold operand
    refine (expr_ensures hconsts e).bind fun r => ?_
    split
    next => exact .pure fun _ e he => by cases he
    next x =>
      refine .pure fun h e he => ?_
      obtain rfl := Option.mem_some.1 he
      exact h.2 x rfl
termination_by e => (sizeOf e, 1)
decreasing_by exact Prod.Lex.right _ Nat.zero_lt_one

theorem operands_ensures (hconsts : ConstsOk consts C) : (es : List Expr) →
    Ensures (operands env consts es) (EnvOk env funcs Δ vars ∧ C) fun r =>
      ∀ xs ∈ r, ∀ x ∈ xs, x.expr.Ok (env.context funcs Δ) vars
  | [] => by
    unfold operands
    refine .pure fun _ xs hxs => ?_
    obtain rfl := Option.mem_some.1 hxs
    simp
  | e :: rest => by
    unfold operands
    refine (operand_ensures hconsts e).bind fun r => ?_
    dsimp only
    split
    next x =>
      refine hasValue_ensures.bind fun ok => ?_
      refine ((operands_ensures hconsts rest).imp (fun h => h.1.1) fun _ _ h => h).bind
        fun r' => ?_
      split
      next x' xs heq =>
        refine .pure fun h ys hys => ?_
        obtain ⟨⟨⟨_, hx⟩, hok, _⟩, hxs⟩ := h
        rw [if_pos hok] at hys
        obtain rfl := Option.mem_some.1 hys
        exact List.forall_mem_cons.2 ⟨hx _ heq, hxs xs rfl⟩
      next => exact .pure fun _ xs hxs => by cases hxs
    next =>
      refine Watch.Ensures.bind (Q := fun _ => True) (.pure fun _ => trivial) fun ok => ?_
      refine ((operands_ensures hconsts rest).imp (fun h => h.1.1) fun _ _ h => h).bind
        fun r' => ?_
      split
      next heq => cases heq
      next => exact .pure fun _ xs hxs => by cases hxs
termination_by es => (sizeOf es, 0)
decreasing_by all_goals (simp only [Prod.lex_def, List.cons.sizeOf_spec]; omega)

theorem elements_ensures (hconsts : ConstsOk consts C) {cls : String} {fields : List Field}
    {filling : Filling} (xs : List (Ident × Operand)) : (es : List (Ident × Expr)) →
    Ensures (elements env consts cls fields filling es)
      ((EnvOk env funcs Δ vars ∧ C) ∧ (filling.ok = true → Filled fields filling xs)) fun r =>
      r.1.ok = true → filling.ok = true ∧ ∃ ys, Filled fields r.1 (xs ++ ys) ∧
        r.2 = ys.map (fun e => (e.1, e.2.expr)) ∧
        ∀ e ∈ ys, e.2.expr.Ok (env.context funcs Δ) vars
  | [] => by
    unfold elements
    exact .pure fun h hok => ⟨hok, [], by simpa using h.2 hok, rfl, by simp⟩
  | (key, value) :: rest => by
    unfold elements
    refine ((operand_ensures hconsts value).imp And.left fun _ _ h => h).bind fun x => ?_
    refine ((fillField_ensures xs).imp (fun h => h.1.2) fun _ _ h => h).bind
      fun filling' => ?_
    refine ((elements_ensures hconsts (xs ++ x.toList.map (key, ·)) rest).imp
      (fun h => ⟨h.1.1.1, fun hok => ?_⟩) fun _ _ h => h).bind fun r => .pure fun h hok => ?_
    · obtain ⟨_, y, rfl, hfilled⟩ := h.2 hok
      exact hfilled
    · obtain ⟨⟨⟨⟨_, _⟩, hx⟩, hfill⟩, hrest⟩ := h
      obtain ⟨hok', ys, hfilled, helems, hys⟩ := hrest hok
      obtain ⟨hstart, y, rfl, _⟩ := hfill hok'
      refine ⟨hstart, (key, y) :: ys, by simpa using hfilled, by simp [helems], ?_⟩
      exact List.forall_mem_cons.2 ⟨hx y rfl, hys⟩
termination_by es => (sizeOf es, 0)
decreasing_by
  all_goals (simp only [Prod.lex_def, List.cons.sizeOf_spec, Prod.mk.sizeOf_spec]; omega)

theorem elementValues_ensures (hconsts : ConstsOk consts C) : (es : List (Ident × Expr)) →
    Ensures (elementValues env consts es) (EnvOk env funcs Δ vars ∧ C) fun _ => True
  | [] => by
    unfold elementValues
    exact .pure fun _ => trivial
  | (_, value) :: rest => by
    unfold elementValues
    refine Watch.Ensures.bind (.discard (Q := fun _ => True) ((expr_ensures hconsts value).imp id
      fun _ _ _ => trivial)) fun _ => ?_
    exact (elementValues_ensures hconsts rest).imp And.left fun _ _ h => h
termination_by es => (sizeOf es, 0)
decreasing_by
  all_goals (simp only [Prod.lex_def, List.cons.sizeOf_spec, Prod.mk.sizeOf_spec]; omega)

end

end Check

end ClassLang

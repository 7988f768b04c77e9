import ClassLang.Proofs.Formed.Collect

/-!
Checking an expression gives it and its parts well-formed types. New types arise where
type arguments are found from operands: these are parts of the types of the operands,
and each satisfies the bound of its parameter.
-/

namespace ClassLang

namespace Typed

variable {T : Table}

theorem factsFormed_factsOf {xs : List Expr} :
    FactsFormed T (Expr.factsOf xs) ↔ ∀ x ∈ xs, FactsFormed T x.facts := by
  induction xs with
  | nil => simp [Expr.factsOf]
  | cons x rest ih => simp [Expr.factsOf, ih]

theorem elemFacts_formed {fields : List Field} {elems : List (Ident × Expr)}
    (h : ∀ e ∈ elems, FactsFormed T e.2.facts) : FactsFormed T (Expr.elemFacts fields elems) := by
  induction elems with
  | nil => simp [Expr.elemFacts]
  | cons e rest ih =>
      obtain ⟨key, value⟩ := e
      obtain ⟨hvalue, hrest⟩ := List.forall_mem_cons.1 h
      have huse : FactsFormed T ((fields.find? (·.name = key.text)).toList.map fun f =>
          Fact.use key (.field f)) := by
        cases fields.find? (·.name = key.text) <;> simp
      simpa [Expr.elemFacts] using ⟨huse, hvalue, ih hrest⟩

end Typed

namespace Check

open ClassLang.Typed (FactsFormed)

variable {w : Watch} {T : Table} {P C : Prop} {env : Env} {consts : ConstSource}

theorem hereditary_formed : Hereditary (·.Formed T) := by
  intro c args h
  simp only [Ty.Formed] at h
  exact Ty.allFormed_iff.1 h.2

/-- The environment of a body: the table is complete, and all that can be named has
well-formed types. -/
structure InUnit (env : Env) (T : Table) (w : Watch) : Prop where
  formed : env.Formed T w
  table : env.table = T
  typed : T.WellTyped
  members : T.Formed
  funcs : ∀ name sig, env.funcs.lookup name = some sig → sig.Formed T

/-- Where `C` holds, the constants have well-formed types. -/
def ConstsFormed (w : Watch) (T : Table) (consts : ConstSource) (C : Prop) : Prop :=
  ∀ name, w.Ensures (consts name) C fun r => ∀ e ∈ r, e.1.Formed T

/-- A checked expression all of whose facts are about well-formed types. -/
def ExprFormed (T : Table) (r : Option Typed.Expr) : Prop := ∀ x ∈ r, FactsFormed T x.facts

theorem exprFormed_none : ExprFormed T none := by simp [ExprFormed]

theorem exprFormed_some {x : Typed.Expr} : ExprFormed T (some x) ↔ FactsFormed T x.facts := by
  simp [ExprFormed]

/-! Expressions without parts -/

theorem name_formed (hconsts : ConstsFormed w T consts C) {id : Ident} :
    w.Ensures (name env consts id) (InUnit env T w ∧ C) (ExprFormed T) := by
  unfold name
  split
  next => exact .fail
  next v hv =>
    refine .pure fun h => ?_
    split
    next => exact exprFormed_none
    next =>
      have hty := h.1.formed.vars _ v hv
      simpa [exprFormed_some, Typed.Expr.facts, Typed.Expr.typing, Typed.Expr.ty] using hty
  next b _ =>
    refine .pure fun _ => ?_
    simp [exprFormed_some, Typed.Expr.facts, Typed.Expr.typing, Typed.Expr.ty, Ty.Formed]
  next c _ =>
    refine ((hconsts c.text).imp And.right fun _ _ h => h).bind fun r => ?_
    split
    next ty value =>
      refine .pure fun h => ?_
      have hty : ty.Formed T := h.2 _ rfl
      simpa [exprFormed_some, Typed.Expr.facts, Typed.Expr.typing, Typed.Expr.ty] using hty
    next => exact .pure fun _ => exprFormed_none
  next => exact .fail
  next => exact .fail
  next => exact .fail

theorem literal_formed {pos : Pos} {kind : LitKind} {text : String} :
    w.Ensures (literal pos kind text) P (ExprFormed T) := by
  have formed {ty : Ty} (c : Constant) (hty : ty.isBasic = true) :
      FactsFormed T (Typed.Expr.literal pos kind text ty c).facts := by
    simpa [Typed.Expr.facts, Typed.Expr.typing, Typed.Expr.ty] using Ty.formed_of_isBasic hty
  unfold literal
  split
  next =>
    split
    next => exact .fail
    next n _ =>
      refine inRange_ensures.imp id fun _ r hr x hx => ?_
      obtain ⟨rfl, _⟩ := hr x hx
      exact formed _ rfl
  next =>
    split
    next => exact .fail
    next => exact .pure fun _ => exprFormed_some.2 (formed _ rfl)
  next => exact .pure fun _ => exprFormed_some.2 (formed _ rfl)

/-! Operators -/

theorem unaryOp_formed {pos : Pos} {op : UnaryOp} {x : Operand} :
    w.Ensures (unaryOp pos op x) (FactsFormed T x.expr.facts) (ExprFormed T) := by
  have formed (c : Option Constant) (hx : FactsFormed T x.expr.facts) :
      FactsFormed T (Typed.Expr.unary pos op x.expr x.ty c).facts := by
    simpa [Typed.Expr.facts, Typed.Expr.typing, Typed.Expr.ty] using
      ⟨Typed.Expr.ty_formed hx, hx⟩
  unfold unaryOp
  refine hasValue_ensures.bind fun ok => ?_
  split
  next => exact .pure fun _ => exprFormed_none
  next =>
    cases op <;> dsimp only <;> split
    all_goals try exact .fail
    all_goals
      split
      next c _ =>
        refine inRange_ensures.imp id fun h r hr e he => ?_
        obtain ⟨rfl, _⟩ := hr e he
        exact formed _ h.1
      next => exact .pure fun h => exprFormed_some.2 (formed _ h.1)

theorem binaryOp_formed {op : BinaryOp} {x y : Operand} :
    w.Ensures (binaryOp op x y) (FactsFormed T x.expr.facts ∧ FactsFormed T y.expr.facts)
      (ExprFormed T) := by
  have formed (c : Option Constant) (hx : FactsFormed T x.expr.facts)
      (hy : FactsFormed T y.expr.facts) :
      FactsFormed T (Typed.Expr.binary op x.expr y.expr (BinaryOp.result op x.ty) c).facts := by
    have hty : (BinaryOp.result op x.ty).Formed T := by
      unfold BinaryOp.result
      split
      next => simp [Ty.Formed]
      next => exact Typed.Expr.ty_formed hx
    simpa [Typed.Expr.facts, Typed.Expr.typing, Typed.Expr.ty] using ⟨hty, hx, hy⟩
  unfold binaryOp
  refine hasValue_ensures.bind fun ok => ?_
  split
  next => exact .pure fun _ => exprFormed_none
  next =>
    refine hasValue_ensures.bind fun ok => ?_
    split
    next => exact .pure fun _ => exprFormed_none
    next =>
      dsimp only
      split
      next => exact .fail
      next =>
        split
        next => exact .fail
        next =>
          split
          next a b _ _ =>
            split
            next => exact .fail
            next =>
              split
              next c _ =>
                refine inRange_ensures.imp id fun h r hr e he => ?_
                obtain ⟨rfl, _⟩ := hr e he
                exact formed _ h.1.1.1 h.1.1.2
              next => exact .pure fun h => exprFormed_some.2 (formed _ h.1.1.1 h.1.1.2)
          next => exact .pure fun h => exprFormed_some.2 (formed _ h.1.1.1 h.1.1.2)

/-! Members -/

theorem selection_formed {x : Operand} {sel : Ident} :
    w.Ensures (selection env x sel) (InUnit env T w ∧ FactsFormed T x.expr.facts)
      (ExprFormed T) := by
  unfold selection
  refine hasValue_ensures.bind fun ok => ?_
  split
  next => exact .pure fun _ => exprFormed_none
  next =>
    dsimp only
    split
    next => exact .fail
    next =>
      split
      next => exact .fail
      next c hc =>
        split
        next f hf =>
          refine .pure fun h => exprFormed_some.2 ?_
          obtain ⟨⟨henv, hx⟩, _⟩ := h
          rw [henv.table] at hc hf
          have hfield := henv.members.flatFields (Table.lookupField_mem hf).1
          have hx' : x.ty.Formed T := Typed.Expr.ty_formed hx
          suffices hty : Ty.Formed T _ by
            simpa [Typed.Expr.facts, Typed.Expr.typing, Typed.Expr.ty] using ⟨hty, hx⟩
          cases hinst : x.ty with
          | inst name targs =>
              rw [hinst] at hc hx'
              obtain ⟨hlen, hargs⟩ := hx'.args hc
              exact hfield.subst henv.typed hlen hargs
          | _ => exact hfield
        next =>
          split
          next => exact .fail
          next => exact .fail

/-- The facts about the operands of a call. -/
theorem operandFacts_formed {xs : List Operand} (h : ∀ x ∈ xs, FactsFormed T x.expr.facts) :
    FactsFormed T (Typed.Expr.factsOf (xs.map (·.expr))) := by
  refine Typed.factsFormed_factsOf.2 fun e he => ?_
  obtain ⟨x, hx, rfl⟩ := List.mem_map.1 he
  exact h x hx

/-- Type arguments found from operands with well-formed types are well-formed, and
admitted for their parameters. -/
theorem infer_formed {pos : Pos} {name : String} {ps : List TypeParam} {params : List Ty}
    {xs : List Operand} :
    w.Ensures (infer env pos name ps params xs)
      (env.Formed T w ∧ ∀ x ∈ xs, FactsFormed T x.expr.facts) fun r => ∀ targs ∈ r,
        targs.length = ps.length ∧ ∀ e ∈ ps.zip targs, e.2.Formed T ∧ T.Admits e.1 e.2 := by
  refine (infer_accepts (hereditary_formed (T := T))).imp (fun h x hx =>
    Typed.Expr.ty_formed (h.2 x hx)) fun h r hr targs htargs => ?_
  obtain ⟨hlen, hknown, haccepts⟩ := hr targs htargs
  exact ⟨hlen, fun e he => ⟨hknown e.2 (List.of_mem_zip he).2, (haccepts e he).admitted h.1⟩⟩

theorem funcCall_formed {fn : Ident} {sym : Symbol} {sig : Signature}
    {args : Option (List Operand)} :
    w.Ensures (funcCall env fn sym sig args)
      (InUnit env T w ∧ sig.Formed T ∧ ∀ xs ∈ args, ∀ x ∈ xs, FactsFormed T x.expr.facts)
      (ExprFormed T) := by
  unfold funcCall
  split
  next => exact .pure fun _ => exprFormed_none
  next args =>
    dsimp only
    refine Watch.Ensures.ite_bind (Q := fun r => ∀ targs ∈ r, targs.length = sig.tparams.length ∧
      ∀ e ∈ sig.tparams.zip targs, e.2.Formed T ∧ T.Admits e.1 e.2) (fun hempty => ?_) (fun _ => ?_)
      fun r => ?_
    · refine .pure fun _ targs htargs => ?_
      obtain rfl := Option.mem_some.1 htargs
      have hnil : sig.tparams = [] := by simpa using hempty
      simp [hnil]
    · exact infer_formed.imp (fun h => ⟨h.1.formed, h.2.2 args rfl⟩) fun _ _ h => h
    · split
      next => exact .pure fun _ => exprFormed_none
      next targs =>
        refine arguments_ensures.bind fun ok => ?_
        split
        next =>
          refine .pure fun h => exprFormed_some.2 ?_
          obtain ⟨⟨⟨henv, hsig, hargs⟩, hinst⟩, _⟩ := h
          obtain ⟨hlen, hall⟩ := hinst targs rfl
          have hsubst := hsig.subst henv.typed hlen hall
          have htargs : ∀ a ∈ targs, a.Formed T := by
            intro a ha
            obtain ⟨p, hp⟩ := Ty.exists_mem_zip hlen ha
            exact (hall _ hp).1
          have htypes : ∀ ty, ty ∈ targs ∨ ty ∈ (sig.subst sig.tparams targs).types →
              ty.Formed T := fun ty h => h.elim (htargs ty) (hsubst ty)
          have hxs := operandFacts_formed (hargs args rfl)
          simpa [Typed.Expr.facts, Typed.Expr.typing, Typed.Expr.ty] using
            ⟨(Signature.formed_iff.1 hsubst).2, htypes, hxs⟩
        next => exact .pure fun _ => exprFormed_none

/-- What a call selects has a well-formed signature. -/
theorem target_formed {x : Operand} {sel : Ident} :
    w.Ensures (target env x sel) (InUnit env T w ∧ FactsFormed T x.expr.facts) fun r =>
      ∀ found ∈ r, found.2.2.Formed T := by
  unfold target
  dsimp only
  split
  next p hp =>
    split
    next => exact .fail
    next b hb =>
      split
      next m hm =>
        refine .pure fun h found hfound => ?_
        obtain rfl := Option.mem_some.1 hfound
        obtain ⟨_, _, hb⟩ := Option.bind_eq_some_iff.1 hb
        rw [h.1.table] at hb
        exact h.1.members.bounds b (List.mem_of_find?_eq_some hb) m (List.mem_of_find?_eq_some hm)
      next => exact .fail
  next =>
    split
    next => exact .fail
    next c hc =>
      split
      next => exact .fail
      next m hm =>
        refine .pure fun h found hfound => ?_
        obtain rfl := Option.mem_some.1 hfound
        obtain ⟨henv, hx⟩ := h
        rw [henv.table] at hc hm
        have hsig := henv.members.lookupMethod hm
        have hx' : x.ty.Formed T := Typed.Expr.ty_formed hx
        dsimp only
        split
        next name targs hinst =>
          rw [hinst] at hc hx'
          obtain ⟨hlen, hargs⟩ := hx'.args hc
          exact hsig.subst henv.typed hlen hargs
        next => exact hsig

theorem methodCall_formed {x : Operand} {sel : Ident} {kind : CallKind} {m : Method}
    {sig : Signature} {args : Option (List Operand)} :
    w.Ensures (methodCall env x sel (kind, m, sig) args)
      (FactsFormed T x.expr.facts ∧ sig.Formed T ∧
        ∀ xs ∈ args, ∀ y ∈ xs, FactsFormed T y.expr.facts) (ExprFormed T) := by
  unfold methodCall
  dsimp only
  split
  next => exact .pure fun _ => exprFormed_none
  next args =>
    refine arguments_ensures.bind fun ok => ?_
    split
    next =>
      refine .pure fun h => exprFormed_some.2 ?_
      obtain ⟨⟨hx, hsig, hargs⟩, _⟩ := h
      have hxs := operandFacts_formed (hargs args rfl)
      have hty : x.expr.ty.Formed T := Typed.Expr.ty_formed hx
      simpa [Typed.Expr.facts, Typed.Expr.typing, Typed.Expr.ty] using
        ⟨(Signature.formed_iff.1 hsig).2, ⟨hty, hsig⟩, hx, hxs⟩
    next => exact .pure fun _ => exprFormed_none

/-! Initializers -/

/-- Where all is well so far, the values given to fields have well-formed types. -/
def FillingFormed (T : Table) (filling : Filling) : Prop :=
  filling.ok = true → ∀ e ∈ filling.given, FactsFormed T e.2.expr.facts

theorem fillField_formed {cls : String} {fields : List Field} {filling : Filling} {key : Ident}
    {value : Option Operand} :
    w.Ensures (fillField cls fields filling key value)
      (FillingFormed T filling ∧ ∀ x ∈ value, FactsFormed T x.expr.facts)
      (FillingFormed T) := by
  unfold fillField
  dsimp only
  split
  next => exact .report_bind (.pure False.elim)
  next =>
    split
    next => exact .report_bind (.pure False.elim)
    next =>
      split
      next => exact .pure fun _ hok => by cases hok
      next x =>
        refine hasValue_ensures.bind fun ok => .pure fun h hok e he => ?_
        have hfilling : filling.ok = true := by simp_all
        rcases List.mem_append.1 he with he | he
        · exact h.1.1 hfilling e he
        · obtain rfl := List.mem_singleton.1 he
          exact h.1.2 x rfl

theorem initialized_formed {cls id : Ident} {c : ClassInfo} {filling : Filling}
    {elems : List (Ident × Typed.Expr)} :
    w.Ensures (initialized env cls (.cls id) c filling elems)
      (InUnit env T w ∧ T.classNamed? c.name = some c ∧ FillingFormed T filling ∧
        ∀ e ∈ elems, FactsFormed T e.2.facts) (ExprFormed T) := by
  unfold initialized
  dsimp only
  split
  next => exact .report_bind (.pure False.elim)
  next =>
    split
    next => exact .pure fun _ => exprFormed_none
    next hok =>
      have hok : filling.ok = true := by simpa using hok
      refine Watch.Ensures.ite_bind (Q := fun r => ∀ targs ∈ r, c.isGeneric = true →
        targs.length = c.tparams.length ∧ ∀ e ∈ c.tparams.zip targs,
          e.2.Formed T ∧ T.Admits e.1 e.2) (fun _ => ?_) (fun hplain => ?_) fun r => ?_
      · refine infer_formed.imp (fun h => ⟨h.1.formed, fun x hx => ?_⟩)
          fun _ r hr targs htargs _ => hr targs htargs
        obtain ⟨f, _, hf⟩ := List.mem_filterMap.1 hx
        exact h.2.2.1 hok _ (mem_of_lookup hf)
      · exact .pure fun _ targs _ hgeneric => absurd hgeneric hplain
      · split
        next => exact .pure fun _ => exprFormed_none
        next targs =>
          refine assignableAll_ensures.bind fun fits => ?_
          split
          next =>
            refine .pure fun h => exprFormed_some.2 ?_
            obtain ⟨⟨⟨_, hclass, _, helems⟩, hinst⟩, _⟩ := h
            have hty : (if c.isGeneric then Ty.inst c.name targs else .cls c.name).Formed T := by
              split
              next hgeneric =>
                obtain ⟨hlen, hall⟩ := hinst targs rfl hgeneric
                simp only [Ty.Formed]
                refine ⟨⟨c, hclass, hlen, fun e he => (hall e he).2⟩,
                  Ty.allFormed_iff.2 fun a ha => ?_⟩
                obtain ⟨p, hp⟩ := Ty.exists_mem_zip hlen ha
                exact (hall _ hp).1
              next => simp [Ty.Formed]
            simpa [Typed.Expr.facts, Typed.Expr.typing, Typed.Expr.ty] using
              ⟨hty, Typed.elemFacts_formed helems⟩
          next => exact .pure fun _ => exprFormed_none

/-! All expressions -/

/-- Operands all of whose facts are about well-formed types. -/
def OperandFormed (T : Table) (r : Option Operand) : Prop :=
  ∀ x ∈ r, FactsFormed T x.expr.facts

mutual

theorem expr_formed (hconsts : ConstsFormed w T consts C) : (e : Expr) →
    w.Ensures (expr env consts e) (InUnit env T w ∧ C) (ExprFormed T)
  | .name id => by
    unfold expr
    exact name_formed hconsts
  | .literal pos kind text => by
    unfold expr
    exact literal_formed
  | .unary pos op x => by
    unfold expr
    refine (operand_formed hconsts x).bind fun r => ?_
    split
    next => exact .pure fun _ => exprFormed_none
    next x => exact unaryOp_formed.imp (fun h => h.2 x rfl) fun _ _ h => h
  | .binary op x y => by
    unfold expr
    refine (operand_formed hconsts x).bind fun r => ?_
    refine ((operand_formed hconsts y).imp And.left fun _ _ h => h).bind fun r' => ?_
    split
    next x y => exact binaryOp_formed.imp (fun h => ⟨h.1.2 x rfl, h.2 y rfl⟩) fun _ _ h => h
    next =>
      refine Watch.Ensures.bind (.discard (Q := fun _ => True) (hasValue_ensures.imp id
        fun _ _ _ => trivial)) fun _ => ?_
      exact .pure fun _ => exprFormed_none
    next => exact .pure fun _ => exprFormed_none
  | .call (.name fn) args => by
    unfold expr
    split
    next id host _ =>
      refine (operands_formed hconsts args).bind fun xs => ?_
      split
      next sig hsig =>
        exact funcCall_formed.imp (fun h => ⟨h.1.1, h.1.1.funcs _ _ hsig, h.2⟩) fun _ _ h => h
      next => exact .pure fun _ => exprFormed_none
    next =>
      dsimp only
      split
      all_goals
        exact .report_bind (ignored (operands_formed hconsts args) False.elim exprFormed_none)
  | .call (.select x sel) args => by
    unfold expr
    refine (operand_formed hconsts x).bind fun r => ?_
    split
    next => exact ignored (operands_formed hconsts args) And.left exprFormed_none
    next x =>
      refine hasValue_ensures.bind fun ok => ?_
      split
      next => exact ignored (operands_formed hconsts args) (fun h => h.1.1) exprFormed_none
      next =>
        refine (target_formed.imp (fun h => ⟨h.1.1.1, h.1.2 x rfl⟩) fun _ _ h => h).bind
          fun found => ?_
        split
        next => exact ignored (operands_formed hconsts args) (fun h => h.1.1.1) exprFormed_none
        next found =>
          refine ((operands_formed hconsts args).imp (fun h => h.1.1.1) fun _ _ h => h).bind
            fun xs => ?_
          refine methodCall_formed.imp (fun h => ?_) fun _ _ h => h
          obtain ⟨⟨⟨⟨_, hx⟩, _⟩, hfound⟩, hxs⟩ := h
          exact ⟨hx x rfl, hfound found rfl, hxs⟩
  | .call (.literal ..) args | .call (.unary ..) args | .call (.binary ..) args
  | .call (.call ..) args | .call (.init ..) args | .call (.paren ..) args => by
    unfold expr
    exact .report_bind (ignored (operands_formed hconsts args) False.elim exprFormed_none)
  | .select x sel => by
    unfold expr
    refine (operand_formed hconsts x).bind fun r => ?_
    split
    next => exact .pure fun _ => exprFormed_none
    next x => exact selection_formed.imp (fun h => ⟨h.1.1, h.2 x rfl⟩) fun _ _ h => h
  | .init cls elems => by
    unfold expr
    split
    next id _ =>
      split
      next c hc =>
        refine ((elements_formed hconsts elems).imp (fun h => ⟨h, fun _ => by simp⟩)
          fun _ _ h => h).bind fun r => ?_
        refine initialized_formed.imp (fun h => ?_) fun _ _ h => h
        obtain ⟨⟨henv, _⟩, hfilling, helems⟩ := h
        rw [henv.table] at hc
        have hname : c.name = id.text := by simpa using List.find?_some hc
        exact ⟨henv, hname ▸ hc, hfilling, helems⟩
      next => exact .pure fun _ => exprFormed_none
    all_goals
      refine .report_bind (((elementValues_formed hconsts elems).imp False.elim
        fun h => h.elim).bind (Q := fun _ => False) fun _ => ?_)
      exact .pure fun h => h.2.elim
  | .paren pos x => by
    unfold expr
    refine (expr_formed hconsts x).bind fun r => ?_
    split
    next => exact .pure fun _ => exprFormed_none
    next x =>
      refine .pure fun h => exprFormed_some.2 ?_
      have hx := h.2 x rfl
      have hty : x.ty.Formed T := Typed.Expr.ty_formed hx
      simpa [Typed.Expr.facts, Typed.Expr.typing, Typed.Expr.ty] using ⟨hty, hx⟩
termination_by e => (sizeOf e, 0)
decreasing_by
  all_goals
    simp only [Prod.lex_def, Expr.unary.sizeOf_spec, Expr.binary.sizeOf_spec,
      Expr.call.sizeOf_spec, Expr.select.sizeOf_spec, Expr.init.sizeOf_spec, Expr.paren.sizeOf_spec]
    omega

theorem operand_formed (hconsts : ConstsFormed w T consts C) : (e : Expr) →
    w.Ensures (operand env consts e) (InUnit env T w ∧ C) (OperandFormed T)
  | e => by
    unfold operand
    refine (expr_formed hconsts e).bind fun r => ?_
    split
    next => exact .pure fun _ e he => by cases he
    next x =>
      refine .pure fun h e he => ?_
      obtain rfl := Option.mem_some.1 he
      exact h.2 x rfl
termination_by e => (sizeOf e, 1)
decreasing_by exact Prod.Lex.right _ Nat.zero_lt_one

theorem operands_formed (hconsts : ConstsFormed w T consts C) : (es : List Expr) →
    w.Ensures (operands env consts es) (InUnit env T w ∧ C) fun r =>
      ∀ xs ∈ r, ∀ x ∈ xs, FactsFormed T x.expr.facts
  | [] => by
    unfold operands
    refine .pure fun _ xs hxs => ?_
    obtain rfl := Option.mem_some.1 hxs
    simp
  | e :: rest => by
    unfold operands
    refine (operand_formed hconsts e).bind fun r => ?_
    dsimp only
    split
    next x =>
      refine hasValue_ensures.bind fun ok => ?_
      refine ((operands_formed hconsts rest).imp (fun h => h.1.1) fun _ _ h => h).bind
        fun r' => ?_
      split
      next x' xs heq =>
        refine .pure fun h ys hys => ?_
        obtain ⟨⟨⟨_, hx⟩, hok, _⟩, hxs⟩ := h
        rw [if_pos hok] at hys
        obtain rfl := Option.mem_some.1 hys
        exact List.forall_mem_cons.2 ⟨hx _ heq, hxs xs rfl⟩
      next => exact .pure fun _ xs hxs => by cases hxs
    next =>
      refine Watch.Ensures.bind (Q := fun _ => True) (.pure fun _ => trivial) fun ok => ?_
      refine ((operands_formed hconsts rest).imp (fun h => h.1.1) fun _ _ h => h).bind
        fun r' => ?_
      split
      next heq => cases heq
      next => exact .pure fun _ xs hxs => by cases hxs
termination_by es => (sizeOf es, 0)
decreasing_by all_goals (simp only [Prod.lex_def, List.cons.sizeOf_spec]; omega)

theorem elements_formed (hconsts : ConstsFormed w T consts C) {cls : String}
    {fields : List Field} {filling : Filling} : (es : List (Ident × Expr)) →
    w.Ensures (elements env consts cls fields filling es)
      ((InUnit env T w ∧ C) ∧ FillingFormed T filling) fun r =>
      FillingFormed T r.1 ∧ ∀ e ∈ r.2, FactsFormed T e.2.facts
  | [] => by
    unfold elements
    exact .pure fun h => ⟨h.2, by simp⟩
  | (key, value) :: rest => by
    unfold elements
    refine ((operand_formed hconsts value).imp And.left fun _ _ h => h).bind fun x => ?_
    refine (fillField_formed.imp (fun h => ⟨h.1.2, h.2⟩) fun _ _ h => h).bind fun filling' => ?_
    refine ((elements_formed hconsts rest).imp (fun h => ⟨h.1.1.1, h.2⟩) fun _ _ h => h).bind
      fun r => .pure fun h => ?_
    obtain ⟨⟨⟨_, hx⟩, _⟩, hfilling, hrest⟩ := h
    refine ⟨hfilling, List.forall_mem_append.2 ⟨fun e he => ?_, hrest⟩⟩
    obtain ⟨y, hy, rfl⟩ := List.mem_map.1 he
    exact hx y (Option.mem_toList.1 hy)
termination_by es => (sizeOf es, 0)
decreasing_by
  all_goals (simp only [Prod.lex_def, List.cons.sizeOf_spec, Prod.mk.sizeOf_spec]; omega)

theorem elementValues_formed (hconsts : ConstsFormed w T consts C) :
    (es : List (Ident × Expr)) →
    w.Ensures (elementValues env consts es) (InUnit env T w ∧ C) fun _ => True
  | [] => by
    unfold elementValues
    exact .pure fun _ => trivial
  | (_, value) :: rest => by
    unfold elementValues
    refine Watch.Ensures.bind (.discard (Q := fun _ => True) ((expr_formed hconsts value).imp id
      fun _ _ _ => trivial)) fun _ => ?_
    exact (elementValues_formed hconsts rest).imp And.left fun _ _ h => h
termination_by es => (sizeOf es, 0)
decreasing_by
  all_goals (simp only [Prod.lex_def, List.cons.sizeOf_spec, Prod.mk.sizeOf_spec]; omega)

end

end Check

end ClassLang

import ClassLang.Proofs.Check.Stmt

/-!
No check fails in silence: where an expression or a statement comes to nothing, an error has been
reported by then.
-/

namespace ClassLang

namespace Check

variable {w : Watch} {P C : Prop} {env : Env} {consts : ConstSource} {Δ : List TypeParam}
  {vars : List Var} {funcs : List (String × Bool × Signature)} {names : List String}

/-- Among what `w` watches is that constants have values of their types. -/
def Watch.Refines (w : Watch) : Prop := ∀ list, w.consts list → Watch.values.consts list

/-- What a step promises about values, and what it promises where more is watched. -/
theorem Watch.Ensures.also {α : Type} {m : Check α} {P P' : Prop} {Q Q' : α → Prop}
    (h' : w.Ensures m P' Q') (hw : w.Refines) (h : Watch.values.Ensures m P Q) :
    w.Ensures m (P ∧ P') fun a => Q a ∧ Q' a := by
  intro s
  refine ⟨(h' s).1, fun hend => ?_⟩
  obtain ⟨hstart, hrest⟩ := (h' s).2 hend
  refine ⟨hstart, fun hvalid hp => ?_⟩
  obtain ⟨hvalid', hq'⟩ := hrest hvalid hp.2
  exact ⟨hvalid', (((h s).2 ⟨hend.1, fun _ _ => trivial⟩).2 (hw _ hvalid) hp.1).2, hq'⟩

/-- Where `P` holds, `m` gives a result or reports an error. -/
abbrev Watch.Answers {α : Type} (w : Watch) (m : Check (Option α)) (P : Prop) : Prop :=
  w.Ensures m P fun r => r.isSome = true

/-- What the names of an environment stand for is there: functions have signatures, classes are
in the table, and constants are among `names`. -/
structure Known (env : Env) (names : List String) : Prop where
  func_known : ∀ name id host, env.lookup name = some (.func id host) →
    (env.funcs.lookup name).isSome = true
  cls_known : ∀ name id, env.lookup name = some (.cls id) →
    (env.table.classNamed? id.text).isSome = true
  const_known : ∀ name id, env.lookup name = some (.const id) → id.text ∈ names

/-- The names of an environment stand for what they do in a context, and that is there. -/
structure EnvFull (env : Env) (funcs : List (String × Bool × Signature)) (Δ : List TypeParam)
    (vars : List Var) (names : List String) : Prop extends EnvOk env funcs Δ vars, Known env names

/-- Where `C` holds, the constants called `names` have values of their types. -/
structure SourceOk (w : Watch) (consts : ConstSource) (C : Prop) (names : List String) :
    Prop where
  refines : w.Refines
  values : ConstsOk consts C
  known : ∀ name, w.Answers (consts name) (C ∧ name ∈ names)

/-! Expressions without parts -/

theorem inRange_answers {pos : Pos} {c : Constant} {e : Typed.Expr} :
    w.Answers (inRange pos c e) P := by
  unfold inRange
  split
  next => exact .fail
  next => exact .pure fun _ => rfl

theorem name_answers (hsource : SourceOk w consts C names) {id : Ident} :
    w.Answers (name env consts id) (EnvFull env funcs Δ vars names ∧ C) := by
  unfold name
  split
  next => exact .fail
  next v hv =>
    refine .pure fun h => ?_
    rw [if_neg (by simp [(h.1.var _ _ hv).2.1.isInvalid])]
    rfl
  next => exact .pure fun _ => rfl
  next c hc =>
    refine ((hsource.known c.text).imp (fun h => ⟨h.2, h.1.const_known _ _ hc⟩) fun _ _ h => h).bind
      fun r => ?_
    split
    next => exact .pure fun _ => rfl
    next => exact .pure fun h => h.2
  next => exact .fail
  next => exact .fail
  next => exact .fail

theorem literal_answers {pos : Pos} {kind : LitKind} {text : String} :
    w.Answers (literal pos kind text) P := by
  unfold literal
  split
  next =>
    split
    next => exact .fail
    next => exact inRange_answers
  next =>
    split
    next => exact .fail
    next => exact .pure fun _ => rfl
  next => exact .pure fun _ => rfl

/-! Operators -/

theorem unaryOp_answers {pos : Pos} {op : UnaryOp} {x : Operand} :
    w.Answers (unaryOp pos op x) P := by
  unfold unaryOp
  refine hasValue_ensures.bind fun ok => ?_
  split
  next hok => exact .pure fun h => by simp [h.2.1] at hok
  next =>
    cases op <;> dsimp only <;> split
    case not.isTrue | neg.isTrue => exact .fail
    case not.isFalse | neg.isFalse =>
      split
      next => exact inRange_answers
      next => exact .pure fun _ => rfl

theorem binaryOp_answers {op : BinaryOp} {x y : Operand} : w.Answers (binaryOp op x y) P := by
  unfold binaryOp
  refine hasValue_ensures.bind fun ok => ?_
  split
  next hok => exact .pure fun h => by simp [h.2.1] at hok
  next =>
    refine hasValue_ensures.bind fun ok => ?_
    split
    next hok => exact .pure fun h => by simp [h.2.1] at hok
    next =>
      dsimp only
      split
      next => exact .fail
      next =>
        split
        next => exact .fail
        next =>
          split
          next =>
            split
            next => exact .fail
            next =>
              split
              next => exact inRange_answers
              next => exact .pure fun _ => rfl
          next => exact .pure fun _ => rfl

/-! Members -/

theorem selection_answers {x : Operand} {sel : Ident} : w.Answers (selection env x sel) P := by
  unfold selection
  refine hasValue_ensures.bind fun ok => ?_
  split
  next hok => exact .pure fun h => by simp [h.2.1] at hok
  next =>
    dsimp only
    split
    next => exact .fail
    next =>
      split
      next => exact .fail
      next =>
        split
        next => exact .pure fun _ => rfl
        next =>
          split
          next => exact .fail
          next => exact .fail

theorem target_answers {x : Operand} {sel : Ident} : w.Answers (target env x sel) P := by
  unfold target
  dsimp only
  split
  next =>
    split
    next => exact .fail
    next =>
      split
      next => exact .pure fun _ => rfl
      next => exact .fail
  next =>
    split
    next => exact .fail
    next =>
      split
      next => exact .fail
      next => exact .pure fun _ => rfl

/-! Operands and their types -/

theorem assignable_answers {table : Table} {x : Operand} {target : Ty} {purpose : String} :
    w.Ensures (assignable table x target purpose) (target.isInvalid = false) (· = true) := by
  unfold assignable
  refine hasValue_ensures.bind fun ok => ?_
  split
  next hok => exact .pure fun h => by simp [h.2.1] at hok
  next =>
    split
    next hinvalid => exact .pure fun h => by simp [h.1] at hinvalid
    next =>
      split
      next => exact .pure fun _ => rfl
      next =>
        dsimp only
        split
        next =>
          split
          next => exact .pure fun _ => rfl
          next => exact .report_bind (.pure False.elim)
        next => exact .report_bind (.pure False.elim)

theorem assignableAll_answers {table : Table} {list : List (Operand × Ty × String)} :
    w.Ensures (assignableAll table list) (∀ e ∈ list, e.2.1.isInvalid = false) (· = true) := by
  induction list with
  | nil => exact .pure fun _ => rfl
  | cons e rest ih =>
      obtain ⟨x, target, purpose⟩ := e
      unfold assignableAll
      refine (assignable_answers.imp (fun h => h _ (List.mem_cons_self ..)) fun _ _ h => h).bind
        fun ok => ?_
      refine (ih.imp (fun h e he => h.1 e (List.mem_cons_of_mem _ he)) fun _ _ h => h).bind
        fun others => ?_
      exact .pure fun h => by simp [h.1.2, h.2]

theorem arguments_answers {pos : Pos} {callee : String} {sig : Signature} {args : List Operand} :
    w.Ensures (arguments env pos callee sig args) (∀ ty ∈ sig.paramTypes, ty.isInvalid = false)
      (· = true) := by
  unfold arguments
  split
  next => exact .report_bind (.pure False.elim)
  next =>
    refine assignableAll_answers.imp (fun h e he => ?_) fun _ _ h => h
    obtain ⟨x, hx, rfl⟩ := List.mem_map.1 he
    exact h _ (List.of_mem_zip hx).2

theorem infer_answers {pos : Pos} {what : String} {ps : List TypeParam} {types : List Ty}
    {operands : List Operand} : w.Answers (infer env pos what ps types operands) P := by
  unfold infer
  split
  next => exact .fail
  next =>
    split
    next => exact .fail
    next =>
      dsimp only
      refine typeArgs_ensures.bind fun ok => ?_
      split
      next => exact .pure fun _ => rfl
      next hok => exact .pure fun h => absurd h.2.1 hok

theorem funcCall_answers (funcs : List (String × Bool × Signature)) (Δ : List TypeParam)
    (vars : List Var) {fn id : Ident} {host : Bool} {sig : Signature} {xs : List Operand} :
    w.Answers (funcCall env fn (.func id host) sig (some xs))
      ((env.context funcs Δ).Sound ∧ env.collecting = false ∧
        funcs.lookup fn.text = some (host, sig) ∧
        ∀ x ∈ xs, x.expr.Ok (env.context funcs Δ) vars) := by
  unfold funcCall
  dsimp only
  refine Watch.Ensures.ite_bind (Q := fun r => r.isSome = true ∧ ∀ targs ∈ r,
    (env.context funcs Δ).Instance sig.tparams targs) (fun hempty => ?_) (fun _ => ?_) fun r => ?_
  · refine .pure fun _ => ⟨rfl, fun targs htargs => ?_⟩
    obtain rfl := Option.mem_some.1 htargs
    have hnil : sig.tparams = [] := by simpa using hempty
    exact ⟨by simp [hnil], by simp [Ty.ScopedAll], by simp [hnil]⟩
  · refine infer_answers.and ((infer_ensures env.table.arity Δ).imp (fun h => ⟨h.2.1, fun x hx =>
      (h.2.2.2 x hx).scoped h.1⟩) fun _ r hr targs htargs => ?_)
    obtain ⟨hlen, hknown, hadmits⟩ := hr targs htargs
    exact ⟨hlen, hknown, hadmits⟩
  · split
    next => exact .pure fun h => by simp at h
    next targs =>
      refine (arguments_answers.imp (fun h ty hty => ?_) fun _ _ h => h).bind fun ok => ?_
      · obtain ⟨⟨hΓ, _, hfunc, _⟩, _, hinst⟩ := h
        have hinst := hinst targs rfl
        exact ((hΓ.funcs _ _ _ hfunc).params_subst hinst.length hinst.known ty hty).isInvalid
      · split
        next => exact .pure fun _ => rfl
        next hok => exact .pure fun h => absurd h.2 hok

theorem methodCall_answers (funcs : List (String × Bool × Signature)) (Δ : List TypeParam)
    (vars : List Var) {x : Operand} {sel : Ident} {kind : CallKind} {m : Method} {sig : Signature}
    {xs : List Operand} :
    w.Answers (methodCall env x sel (kind, m, sig) (some xs))
      ((env.context funcs Δ).Sound ∧ x.expr.Ok (env.context funcs Δ) vars ∧
        Selects env.table x.expr sel kind m sig) := by
  unfold methodCall
  dsimp only
  refine (arguments_answers.imp (fun h ty hty => ?_) fun _ _ h => h).bind fun ok => ?_
  · exact (h.2.2.params_scoped h.1 h.2.1 ty hty).isInvalid
  · split
    next => exact .pure fun _ => rfl
    next hok => exact .pure fun h => absurd h.2 hok

/-! Initializers -/

theorem fillField_answers {cls : String} {fields : List Field} {filling : Filling} {key : Ident}
    {value : Option Operand} :
    w.Ensures (fillField cls fields filling key value) P fun r =>
      filling.ok = true → value.isSome = true → r.ok = true := by
  unfold fillField
  dsimp only
  split
  next => exact .report_bind (.pure False.elim)
  next =>
    split
    next => exact .report_bind (.pure False.elim)
    next =>
      split
      next => exact .pure fun _ _ h => by simp at h
      next x => exact hasValue_ensures.bind fun ok => .pure fun h hok _ => by simp [hok, h.2.1]

theorem initialized_answers (funcs : List (String × Bool × Signature)) (Δ : List TypeParam)
    (vars : List Var) {cls id : Ident} {c : ClassInfo} {filling : Filling}
    {elems : List (Ident × Typed.Expr)} :
    w.Answers (initialized env cls (.cls id) c filling elems)
      ((env.context funcs Δ).Sound ∧ env.collecting = false ∧
        env.table.classNamed? cls.text = some c ∧ filling.ok = true ∧
        ∃ xs, Filled (env.table.flatFields c.id) filling xs ∧
          ∀ e ∈ xs, e.2.expr.Ok (env.context funcs Δ) vars) := by
  unfold initialized
  dsimp only
  split
  next => exact .report_bind (.pure False.elim)
  next =>
    split
    next hok => exact .pure fun h => by simp [h.2.2.2.1] at hok
    next =>
      refine Watch.Ensures.ite_bind (Q := fun r => r.isSome = true ∧ ∀ targs ∈ r,
        (env.context funcs Δ).Instance c.tparams targs) (fun _ => ?_) (fun hplain => ?_)
        fun r => ?_
      · refine infer_answers.and ((infer_ensures env.table.arity Δ).imp
          (fun h => ⟨h.2.1, fun x hx => ?_⟩) fun _ r hr targs htargs => ?_)
        · obtain ⟨hΓ, _, _, _, xs, hxs, hall⟩ := h
          obtain ⟨f, _, hf⟩ := List.mem_filterMap.1 hx
          obtain ⟨e, he, _, rfl⟩ := hxs.mem_of_lookup hf
          exact (hall e he).scoped hΓ
        · obtain ⟨hlen, hknown, hadmits⟩ := hr targs htargs
          exact ⟨hlen, hknown, hadmits⟩
      · refine .pure fun _ => ⟨rfl, fun targs htargs => ?_⟩
        obtain rfl := Option.mem_some.1 htargs
        have hnil : c.tparams = [] := by simpa [ClassInfo.isGeneric] using hplain
        exact ⟨by simp [hnil], by simp [Ty.ScopedAll], by simp [hnil]⟩
      · split
        next => exact .pure fun h => by simp at h
        next targs =>
          refine (assignableAll_answers.imp (fun h e he => ?_) fun _ _ h => h).bind fun fits => ?_
          · obtain ⟨⟨hΓ, _, hclass, _, _⟩, _, hinst⟩ := h
            have hinst := hinst targs rfl
            obtain ⟨⟨f, x⟩, hmem, rfl⟩ := List.mem_map.1 he
            have hid := hΓ.table.linked.class?_id (List.mem_of_find?_eq_some hclass)
            have hfield := hΓ.table.lookupField_scoped hid
              (hΓ.table.lookupField_eq (Table.class?_eq_some_lt hid) (List.of_mem_zip hmem).1)
            exact (hfield.2.1.subst hinst.length hinst.known).isInvalid
          · split
            next => exact .pure fun _ => rfl
            next hok => exact .pure fun h => absurd h.2 hok

/-! All expressions -/

/-- What is looked at only after an error promises anything. -/
theorem unreached {α β : Type} {m : Check α} {P P' : Prop} {R : α → Prop} {Q : Option β → Prop}
    (h : w.Ensures m P' R) (hp : ¬ P) :
    w.Ensures (do discard m; return (none : Option β)) P Q :=
  Watch.Ensures.bind (.discard (Q := fun _ => False) (h.vacuous hp)) fun _ =>
    .pure fun h => h.2.elim

mutual

/-- An expression that is checked has a type, or an error is reported. -/
theorem expr_answers (hsource : SourceOk w consts C names) : (e : Expr) →
    w.Answers (expr env consts e) (EnvFull env funcs Δ vars names ∧ C)
  | .name id => by
    unfold expr
    exact name_answers hsource
  | .literal pos kind text => by
    unfold expr
    exact literal_answers
  | .unary pos op x => by
    unfold expr
    refine (operand_answers hsource x).bind fun r => ?_
    split
    next => exact .pure fun h => by simp at h
    next => exact unaryOp_answers
  | .binary op x y => by
    unfold expr
    refine (operand_answers hsource x).bind fun r => ?_
    refine ((operand_answers hsource y).imp And.left fun _ _ h => h).bind fun r' => ?_
    split
    next => exact binaryOp_answers
    next =>
      refine Watch.Ensures.bind (.discard (Q := fun _ => True) (hasValue_ensures.imp id
        fun _ _ _ => trivial)) fun _ => .pure fun h => by simp at h
    next => exact .pure fun h => by simp at h
  | .call (.name fn) args => by
    unfold expr
    split
    next id host hlookup =>
      refine (operands_answers hsource args).bind fun r => ?_
      split
      next sig hsig =>
        cases r with
        | none => exact .pure fun h => by simp at h
        | some xs =>
            refine (funcCall_answers funcs Δ vars).imp (fun h => ?_) fun _ _ h => h
            obtain ⟨⟨henv, _⟩, ys, heq, hys⟩ := h
            cases heq
            exact ⟨henv.sound, henv.collected, (henv.func _ _ _ _ hlookup hsig).2, hys⟩
      next hsig =>
        refine .pure fun h => ?_
        have hfound := h.1.1.func_known _ _ _ hlookup
        simp [hsig] at hfound
    next =>
      dsimp only
      split
      next => exact .report_bind (unreached (operands_answers hsource args) id)
      next => exact .report_bind (unreached (operands_answers hsource args) id)
  | .call (.select x sel) args => by
    unfold expr
    refine (operand_answers hsource x).bind fun r => ?_
    split
    next => exact unreached (operands_answers hsource args) (by simp)
    next x =>
      refine hasValue_ensures.bind fun ok => ?_
      split
      next hok => exact unreached (operands_answers hsource args) fun h => by simp [h.2.1] at hok
      next =>
        refine Watch.Ensures.bind (Q := fun r => (∀ found ∈ r,
          Selects env.table x.expr sel found.1 found.2.1 found.2.2) ∧ r.isSome = true) ?_
          fun found => ?_
        · refine ((target_answers (P := True)).also hsource.refines
            (@target_ensures env Δ vars funcs x sel)).imp (fun h => ?_) fun _ _ h => h
          obtain ⟨⟨⟨henv, _⟩, y, heq, hy⟩, _⟩ := h
          cases heq
          exact ⟨⟨hy, henv.sound⟩, trivial⟩
        split
        next => exact unreached (operands_answers hsource args) (by simp)
        next found =>
          refine ((operands_answers hsource args).imp (fun h => h.1.1.1) fun _ _ h => h).bind
            fun r => ?_
          cases r with
          | none => exact .pure fun h => by simp at h
          | some xs =>
              refine (methodCall_answers funcs Δ vars).imp (fun h => ?_) fun _ _ h => h
              obtain ⟨⟨⟨⟨⟨henv, _⟩, y, heq, hy⟩, _⟩, hfound, _⟩, _⟩ := h
              cases heq
              exact ⟨henv.sound, hy, hfound found rfl⟩
  | .call (.literal ..) args | .call (.unary ..) args | .call (.binary ..) args
  | .call (.call ..) args | .call (.init ..) args | .call (.paren ..) args => by
    unfold expr
    exact .report_bind (unreached (operands_answers hsource args) id)
  | .select x sel => by
    unfold expr
    refine (operand_answers hsource x).bind fun r => ?_
    split
    next => exact .pure fun h => by simp at h
    next => exact selection_answers
  | .init cls elems => by
    unfold expr
    split
    next id hlookup =>
      split
      next c hc =>
        have hfilled : Filled (env.table.flatFields c.id) {} [] := ⟨rfl, by simp, by simp⟩
        refine Watch.Ensures.bind (((elements_answers hsource elems).also hsource.refines
          (elements_ensures hsource.values [] elems)).imp
            (fun h => ⟨⟨⟨h.1.toEnvOk, h.2⟩, fun _ => hfilled⟩, h, rfl⟩) fun _ _ h => h) fun r => ?_
        refine (initialized_answers funcs Δ vars).imp (fun h => ?_) fun _ _ h => h
        obtain ⟨⟨henv, _⟩, hr, hok⟩ := h
        rw [henv.cls _ _ hlookup] at hc
        obtain ⟨_, ys, hfilled, _, hys⟩ := hr hok
        exact ⟨henv.sound, henv.collected, hc, hok, ys, hfilled, hys⟩
      next hc =>
        refine .pure fun h => ?_
        have hfound := h.1.cls_known _ _ hlookup
        simp [hc] at hfound
    all_goals
      refine .report_bind (((elementValues_answers hsource elems).imp False.elim
        fun h => h.elim).bind (Q := fun _ => False) fun _ => ?_)
      exact .pure fun h => h.2.elim
  | .paren pos x => by
    unfold expr
    refine (expr_answers hsource x).bind fun r => ?_
    split
    next => exact .pure fun h => by simp at h
    next => exact .pure fun _ => rfl
termination_by e => (sizeOf e, 0)
decreasing_by
  all_goals
    simp only [Prod.lex_def, Expr.unary.sizeOf_spec, Expr.binary.sizeOf_spec,
      Expr.call.sizeOf_spec, Expr.select.sizeOf_spec, Expr.init.sizeOf_spec, Expr.paren.sizeOf_spec]
    omega

theorem operand_answers (hsource : SourceOk w consts C names) : (e : Expr) →
    w.Ensures (operand env consts e) (EnvFull env funcs Δ vars names ∧ C) fun r =>
      ∃ x, r = some x ∧ x.expr.Ok (env.context funcs Δ) vars
  | e => by
    unfold operand
    refine Watch.Ensures.bind (((expr_answers hsource e).also hsource.refines
      (expr_ensures hsource.values e)).imp
      (fun h => ⟨⟨h.1.toEnvOk, h.2⟩, h⟩) fun _ _ h => h) fun r => ?_
    split
    next => exact .pure fun h => by simp at h
    next x => exact .pure fun h => ⟨_, rfl, h.2.1 x rfl⟩
termination_by e => (sizeOf e, 1)
decreasing_by exact Prod.Lex.right _ Nat.zero_lt_one

theorem operands_answers (hsource : SourceOk w consts C names) : (es : List Expr) →
    w.Ensures (operands env consts es) (EnvFull env funcs Δ vars names ∧ C) fun r =>
      ∃ xs, r = some xs ∧ ∀ x ∈ xs, x.expr.Ok (env.context funcs Δ) vars
  | [] => by
    unfold operands
    exact .pure fun _ => ⟨[], rfl, by simp⟩
  | e :: rest => by
    unfold operands
    refine (operand_answers hsource e).bind fun r => ?_
    dsimp only
    split
    next x =>
      refine hasValue_ensures.bind fun ok => ?_
      refine ((operands_answers hsource rest).imp (fun h => h.1.1) fun _ _ h => h).bind fun r' => ?_
      split
      next x' xs heq =>
        refine .pure fun h => ?_
        obtain ⟨⟨⟨_, y, hy, hyOk⟩, hok, _⟩, zs, hzs, hzsOk⟩ := h
        obtain rfl := Option.some.inj (hy.symm.trans heq)
        cases hzs
        exact ⟨_, if_pos hok, List.forall_mem_cons.2 ⟨hyOk, hzsOk⟩⟩
      next hnone =>
        refine .pure fun h => ?_
        obtain ⟨_, zs, rfl, _⟩ := h
        exact (hnone _ _ rfl rfl).elim
    next =>
      refine Watch.Ensures.bind (Q := fun _ => True) (.pure fun _ => trivial) fun ok => ?_
      refine ((operands_answers hsource rest).imp (fun h => h.1.1) fun _ _ h => h).bind fun r' => ?_
      split
      next heq => cases heq
      next => exact .pure fun h => by simp at h
termination_by es => (sizeOf es, 0)
decreasing_by all_goals (simp only [Prod.lex_def, List.cons.sizeOf_spec]; omega)

theorem elements_answers (hsource : SourceOk w consts C names) {cls : String}
    {fields : List Field} {filling : Filling} :
    (es : List (Ident × Expr)) → w.Ensures (elements env consts cls fields filling es)
      ((EnvFull env funcs Δ vars names ∧ C) ∧ filling.ok = true) fun r => r.1.ok = true
  | [] => by
    unfold elements
    exact .pure fun h => h.2
  | (key, value) :: rest => by
    unfold elements
    refine ((operand_answers hsource value).imp And.left fun _ _ h => h).bind fun r => ?_
    refine Watch.Ensures.bind (Q := fun r => r.ok = true) (fillField_answers.imp id
      fun h _ hfill => ?_) fun filling' => ?_
    · obtain ⟨⟨_, hok⟩, x, rfl, _⟩ := h
      exact hfill hok rfl
    · exact ((elements_answers hsource rest).imp (fun h => ⟨h.1.1.1, h.2⟩) fun _ _ h => h).bind
        fun r => .pure fun h => h.2
termination_by es => (sizeOf es, 0)
decreasing_by
  all_goals (simp only [Prod.lex_def, List.cons.sizeOf_spec, Prod.mk.sizeOf_spec]; omega)

theorem elementValues_answers (hsource : SourceOk w consts C names) : (es : List (Ident × Expr)) →
    w.Ensures (elementValues env consts es) (EnvFull env funcs Δ vars names ∧ C) fun _ => True
  | [] => by
    unfold elementValues
    exact .pure fun _ => trivial
  | (_, value) :: rest => by
    unfold elementValues
    refine Watch.Ensures.bind (.discard (Q := fun _ => True) ((expr_answers hsource value).imp id
      fun _ _ _ => trivial)) fun _ => ?_
    exact (elementValues_answers hsource rest).imp And.left fun _ _ h => h
termination_by es => (sizeOf es, 0)
decreasing_by
  all_goals (simp only [Prod.lex_def, List.cons.sizeOf_spec, Prod.mk.sizeOf_spec]; omega)

end

/-! Scopes -/

/-- The names of a scope stand for type parameters and variables. -/
def Locals (s : Scope Symbol) : Prop :=
  ∀ e ∈ s.entries, (∃ p pos, e.2 = .typeParam p pos) ∨ ∃ v, e.2 = .var v

theorem locals_empty (label : String) : Locals { label } := by simp [Locals]

theorem Locals.push {s : Scope Symbol} (h : Locals s) (name : String) (v : Var) :
    Locals (s.push name (.var v)) := by
  intro e he
  rcases List.mem_append.1 he with he | he
  · exact h e he
  · obtain rfl := List.mem_singleton.1 he
    exact .inr ⟨v, rfl⟩

theorem Locals.nest {s inner : Scope Symbol} (h : Locals s) : Locals (s.nest inner) := h

/-- What is there outside of a scope is there inside. -/
theorem Known.enter {s : Scope Symbol} (h : Known env names) (hs : Locals s) :
    Known (env.enter s) names := by
  have hback {name : String} {sym : Symbol} (htype : ∀ p pos, sym ≠ .typeParam p pos)
      (hvar : ∀ v, sym ≠ .var v) (hl : (env.enter s).lookup name = some sym) :
      env.lookup name = some sym := by
    rw [lookup_enter] at hl
    cases hfind : s.find? name with
    | none => simpa [hfind] using hl
    | some sym' =>
        obtain rfl : sym' = sym := by simpa [hfind] using hl
        rcases hs _ (find?_mem hfind) with ⟨p, pos, heq⟩ | ⟨v, heq⟩
        · exact absurd heq (htype p pos)
        · exact absurd heq (hvar v)
  refine ⟨fun name id host hl => ?_, fun name id hl => ?_, fun name id hl => ?_⟩
  · exact h.func_known name id host (hback (by simp) (by simp) hl)
  · exact h.cls_known name id (hback (by simp) (by simp) hl)
  · exact h.const_known name id (hback (by simp) (by simp) hl)

/-! Statements without parts -/

variable {p : Place} {s : Scope Symbol}

theorem Place.operand_answers (hsource : SourceOk w p.consts C names) {e : Expr} :
    w.Ensures (p.operand s e) (EnvFull (p.env.enter s) funcs Δ vars names ∧ C) fun r =>
      ∃ x, r = some x ∧ x.expr.Ok (p.context funcs Δ) vars :=
  Check.operand_answers hsource e

theorem exprStmt_answers (hsource : SourceOk w p.consts C names) {e : Expr} :
    w.Answers (exprStmt p s e) (EnvFull (p.env.enter s) funcs Δ vars names ∧ C) := by
  unfold exprStmt
  refine (Place.operand_answers hsource).bind fun r => ?_
  split
  next => exact .pure fun h => by simp at h
  next =>
    split
    next => exact .pure fun _ => rfl
    next => exact .fail

theorem assignStmt_answers (hsource : SourceOk w p.consts C names) {lhs rhs : Expr} :
    w.Answers (assignStmt p s lhs rhs) (EnvFull (p.env.enter s) funcs Δ vars names ∧ C) := by
  unfold assignStmt
  refine (Place.operand_answers hsource).bind fun x => ?_
  refine ((Place.operand_answers hsource).imp And.left fun _ _ h => h).bind fun y => ?_
  split
  next => exact .pure fun h => by simp at h
  next x =>
    split
    next => exact .fail
    next =>
      split
      next => exact .pure fun h => by simp at h
      next y =>
        refine (assignable_answers.imp (fun h => ?_) fun _ _ h => h).bind fun ok => ?_
        · obtain ⟨⟨⟨henv, _⟩, x', heq, hx⟩, _⟩ := h
          cases heq
          exact (hx.scoped henv.sound).isInvalid
        · split
          next => exact .pure fun _ => rfl
          next hok => exact .pure fun h => absurd h.2 hok

theorem condition_answers (hsource : SourceOk w p.consts C names) {e : Expr} {word : String} :
    w.Answers (condition p s e word) (EnvFull (p.env.enter s) funcs Δ vars names ∧ C) := by
  unfold condition
  refine (Place.operand_answers hsource).bind fun r => ?_
  split
  next => exact .pure fun h => by simp at h
  next =>
    refine hasValue_ensures.bind fun ok => ?_
    split
    next hok => exact .pure fun h => by simp [h.2.1] at hok
    next =>
      split
      next => exact .pure fun _ => rfl
      next => exact .fail

theorem loopBound_answers (hsource : SourceOk w p.consts C names) {e : Expr} :
    w.Answers (loopBound p s e) (EnvFull (p.env.enter s) funcs Δ vars names ∧ C) := by
  unfold loopBound
  refine (Place.operand_answers hsource).bind fun r => ?_
  split
  next => exact .pure fun h => by simp at h
  next =>
    refine hasValue_ensures.bind fun ok => ?_
    split
    next hok => exact .pure fun h => by simp [h.2.1] at hok
    next =>
      split
      next => exact .pure fun _ => rfl
      next => exact .fail

theorem returnStmt_answers (hsource : SourceOk w p.consts C names) {pos : Pos}
    {value : Option Expr} :
    w.Answers (returnStmt p s pos value) ((EnvFull (p.env.enter s) funcs Δ vars names ∧ C) ∧
      p.result.isInvalid = false) := by
  cases value with
  | none =>
      rw [returnStmt]
      split
      next => exact .pure fun _ => rfl
      next => exact .fail
  | some e =>
      rw [returnStmt]
      refine ((Place.operand_answers hsource).imp And.left fun _ _ h => h).bind fun r => ?_
      split
      next => exact .pure fun h => by simp at h
      next x =>
        split
        next => exact .fail
        next =>
          refine (assignable_answers.imp (fun h => h.1.2) fun _ _ h => h).bind fun ok => ?_
          split
          next => exact .pure fun _ => rfl
          next hok => exact .pure fun h => absurd h.2 hok

theorem bindStmt_answers (hsource : SourceOk w p.consts C names) {pos : Pos} {name : Ident}
    {type : TypeExpr} {value : Expr} :
    w.Ensures (bindStmt p s pos name type value)
      ((EnvFull (p.env.enter s) funcs Δ vars names ∧ C) ∧ Locals s) fun r =>
      r.2.isSome = true ∧ Locals r.1 := by
  unfold bindStmt
  refine ((varType_ensures (Δ := Δ)).imp (fun h => ⟨h.1.1.types, h.1.1.basic⟩) fun _ _ h => h).bind
    fun term => ?_
  refine ((Place.operand_answers hsource).imp (fun h => h.1.1) fun _ _ h => h).bind fun x => ?_
  dsimp only
  split
  next term x =>
    refine (assignable_answers.imp (fun h => ?_) fun _ _ h => h).bind fun ok => ?_
    · obtain ⟨⟨_, term', heq, hscoped, _⟩, _⟩ := h
      cases heq
      exact hscoped.isInvalid
    split
    next =>
      refine Watch.Ensures.bind (Q := fun r => r.isSome = true) (.pure fun _ => rfl) fun stmt => ?_
      refine declare_ensures.bind fun s' => .pure fun h => ?_
      obtain ⟨⟨⟨⟨⟨⟨_, hlocals⟩, _⟩, _⟩, _⟩, hstmt⟩, rfl, _⟩ := h
      exact ⟨hstmt, hlocals.push _ _⟩
    next hok =>
      refine Watch.Ensures.bind (Q := fun _ => False) (.pure fun h => absurd h.2 hok) fun stmt => ?_
      exact declare_ensures.bind fun s' => .pure fun h => h.1.2.elim
  next hnone =>
    refine Watch.Ensures.bind (Q := fun _ => False) (.pure fun h => ?_) fun stmt => ?_
    · obtain ⟨⟨_, _, rfl, _⟩, _, rfl, _⟩ := h
      exact hnone _ _ rfl rfl
    · exact declare_ensures.bind fun s' => .pure fun h => h.1.2.elim

/-! All statements -/

/-- What holds where a statement stands, and that what its names stand for is there. -/
structure StandsFull (p : Place) (s : Scope Symbol) (funcs : List (String × Bool × Signature))
    (Δ : List TypeParam) (vars : List Var) (C : Prop) (names : List String) : Prop where
  stands : StandsIn p s funcs Δ vars C
  known : Known p.env names
  locals : Locals s

namespace StandsFull

theorem full (h : StandsFull p s funcs Δ vars C names) :
    EnvFull (p.env.enter s) funcs Δ vars names ∧ C :=
  ⟨⟨h.stands.1.1, h.known.enter h.locals⟩, h.stands.1.2⟩

theorem next {s' : Scope Symbol} {vars' : List Var} (h : StandsFull p s funcs Δ vars C names)
    (henv : EnvOk (p.env.enter s') funcs Δ vars') (hlocals : Locals s') :
    StandsFull p s' funcs Δ vars' C names :=
  ⟨h.stands.next henv, h.known, hlocals⟩

theorem inside (h : StandsFull p s funcs Δ vars C names) (label : String) :
    StandsFull (p.enter s) { label } funcs Δ vars C names :=
  ⟨h.stands.inside label, h.known.enter h.locals, locals_empty label⟩

/-- The body of a counting loop, which sees its variable. -/
theorem counting (h : StandsFull p s funcs Δ vars C names) {var : Ident}
    (hnew : var.text ∉ ({ label := "for" } : Scope Symbol).names) :
    StandsFull (p.enter s) (({ label := "for" } : Scope Symbol).push var.text
      (.var ⟨var.text, var.pos, .localVar, .int⟩)) funcs Δ
      (⟨var.text, var.pos, .localVar, .int⟩ :: vars) C names := by
  refine (h.inside "for").next ?_ ((locals_empty "for").push _ _)
  exact (h.inside "for").stands.1.1.declare (v := ⟨var.text, var.pos, .localVar, .int⟩) hnew
    (by simp [Ty.Scoped]) rfl

end StandsFull

mutual

/-- A statement that is checked comes to something, or an error is reported. -/
theorem stmt_answers {env : Env} {s : Scope Symbol} {result : Ty}
    (hsource : SourceOk w consts C names) (vars : List Var) : (x : Stmt) →
    w.Ensures (stmt ⟨env, consts, result⟩ s x)
      (StandsFull ⟨env, consts, result⟩ s funcs Δ vars C names ∧ x.Shaped) fun r =>
      r.2.isSome = true ∧ Locals r.1
  | .empty pos => by
    unfold stmt
    exact .pure fun h => ⟨rfl, h.1.locals⟩
  | .expr x => by
    unfold stmt
    refine ((exprStmt_answers hsource).imp (fun h => h.1.full) fun _ _ h => h).bind fun r => ?_
    exact .pure fun h => ⟨h.2, h.1.1.locals⟩
  | .bind pos name type value => by
    unfold stmt
    exact (bindStmt_answers hsource).imp (fun h => ⟨h.1.full, h.1.locals⟩) fun _ _ h => h
  | .assign lhs rhs => by
    unfold stmt
    refine ((assignStmt_answers hsource).imp (fun h => h.1.full) fun _ _ h => h).bind fun r => ?_
    exact .pure fun h => ⟨h.2, h.1.1.locals⟩
  | .block body => by
    unfold stmt
    refine ((block_answers hsource vars body).imp
      (fun h => ⟨h.1, by simpa [Stmt.Shaped] using h.2⟩) fun _ _ h => h).bind fun r => ?_
    exact .pure fun h => ⟨by simpa using h.2.1, h.2.2⟩
  | .ifElse pos cond body other => by
    unfold stmt
    refine ((condition_answers hsource).imp (fun h => h.1.full) fun _ _ h => h).bind fun c => ?_
    refine Watch.Ensures.bind (Q := fun r => EnvOk (env.enter r.1) funcs Δ vars ∧
      r.2.isSome = true ∧ Locals r.1) (((block_answers hsource vars body).also hsource.refines
        (block_ensures hsource.values vars body)).imp (fun h => ?_) fun _ _ h => ⟨h.1.1, h.2⟩)
      fun (s₁, b) => ?_
    · have hshape := (by simpa [Stmt.Shaped] using h.1.2 : _ ∧ _).1
      exact ⟨⟨h.1.1.stands, hshape⟩, h.1.1, hshape⟩
    refine ((alternative_answers hsource vars other).imp
      (fun h => ⟨h.1.1.1.next h.2.1 h.2.2.2, ?_⟩) fun _ _ h => h).bind fun (s₂, o) => ?_
    · exact (by simpa [Stmt.Shaped] using h.1.1.2 : _ ∧ _).2
    dsimp only
    split
    next => exact .pure fun h => ⟨rfl, h.2.2⟩
    next hnone =>
      refine .pure fun h => ?_
      obtain ⟨⟨⟨_, hcond⟩, _, hbody, _⟩, hother, _⟩ := h
      obtain ⟨cond', rfl⟩ := Option.isSome_iff_exists.1 hcond
      obtain ⟨body', rfl⟩ := Option.isSome_iff_exists.1 hbody
      obtain ⟨other', rfl⟩ := Option.isSome_iff_exists.1 hother
      exact (hnone _ _ _ rfl rfl rfl).elim
  | .whileLoop pos cond body => by
    unfold stmt
    refine ((condition_answers hsource).imp (fun h => h.1.full) fun _ _ h => h).bind fun c => ?_
    refine ((block_answers hsource vars body).imp (fun h => ⟨h.1.1, ?_⟩) fun _ _ h => h).bind
      fun (s₁, b) => ?_
    · simpa [Stmt.Shaped] using h.1.2
    dsimp only
    split
    next => exact .pure fun h => ⟨rfl, h.2.2⟩
    next hnone =>
      refine .pure fun h => ?_
      obtain ⟨⟨_, hcond⟩, hbody, _⟩ := h
      obtain ⟨cond', rfl⟩ := Option.isSome_iff_exists.1 hcond
      obtain ⟨body', rfl⟩ := Option.isSome_iff_exists.1 hbody
      exact (hnone _ _ rfl rfl).elim
  | .forLoop pos var range body => by
    unfold stmt
    refine ((loopBound_answers hsource).imp (fun h => h.1.full) fun _ _ h => h).bind
      fun low => ?_
    refine ((loopBound_answers hsource).imp (fun h => h.1.1.full) fun _ _ h => h).bind
      fun high => ?_
    dsimp only
    refine declare_ensures.bind fun loop => ?_
    refine ((block_answers hsource (⟨var.text, var.pos, .localVar, .int⟩ :: vars)
      body).imp (fun h => ?_) fun _ _ h => h).bind fun (s₁, b) => ?_
    · obtain ⟨⟨⟨⟨hin, hshape⟩, _⟩, _⟩, rfl, hnew⟩ := h
      exact ⟨hin.counting hnew, by simpa [Stmt.Shaped] using hshape⟩
    dsimp only
    split
    next => exact .pure fun h => ⟨rfl, h.1.1.1.1.1.locals⟩
    next hnone =>
      refine .pure fun h => ?_
      obtain ⟨⟨⟨⟨_, hlow⟩, hhigh⟩, _⟩, hbody, _⟩ := h
      obtain ⟨low', rfl⟩ := Option.isSome_iff_exists.1 hlow
      obtain ⟨high', rfl⟩ := Option.isSome_iff_exists.1 hhigh
      obtain ⟨body', rfl⟩ := Option.isSome_iff_exists.1 hbody
      exact (hnone _ _ _ rfl rfl rfl).elim
  | .ret pos value => by
    unfold stmt
    refine ((returnStmt_answers hsource).imp (fun h => ⟨h.1.full, ?_⟩) fun _ _ h => h).bind
      fun r => ?_
    · exact h.1.stands.2.isInvalid
    · exact .pure fun h => ⟨h.2, h.1.1.locals⟩

theorem alternative_answers {env : Env} {s : Scope Symbol} {result : Ty}
    (hsource : SourceOk w consts C names) (vars : List Var) : (other : Option Stmt) →
    w.Ensures (alternative ⟨env, consts, result⟩ s other)
      (StandsFull ⟨env, consts, result⟩ s funcs Δ vars C names ∧ Stmt.OtherShaped other) fun r =>
      r.2.isSome = true ∧ Locals r.1
  | none => by
    unfold alternative
    exact .pure fun h => ⟨rfl, h.1.locals⟩
  | some other => by
    unfold alternative
    refine ((stmt_answers hsource vars other).imp (fun h => ⟨h.1, ?_⟩) fun _ _ h => h).bind
      fun r => ?_
    · exact (by simpa [Stmt.OtherShaped] using h.2 : _ ∧ _).2
    · exact .pure fun h => ⟨by simpa using h.2.1, h.2.2⟩

theorem block_answers {env : Env} {s : Scope Symbol} {result : Ty}
    (hsource : SourceOk w consts C names) (vars : List Var) : (body : Block) →
    w.Ensures (block ⟨env, consts, result⟩ s body)
      (StandsFull ⟨env, consts, result⟩ s funcs Δ vars C names ∧ body.Shaped) fun r =>
      r.2.isSome = true ∧ Locals r.1
  | .mk pos list close => by
    unfold block
    refine ((stmts_answers hsource vars list).imp (fun h => ⟨h.1.inside "block", ?_⟩)
      fun _ _ h => h).bind fun r => ?_
    · simpa [Block.Shaped] using h.2
    · exact .pure fun h => ⟨by simpa using h.2.1, h.1.1.locals⟩

theorem stmts_answers {env : Env} {s : Scope Symbol} {result : Ty}
    (hsource : SourceOk w consts C names) (vars : List Var) : (list : List Stmt) →
    w.Ensures (stmts ⟨env, consts, result⟩ s list)
      (StandsFull ⟨env, consts, result⟩ s funcs Δ vars C names ∧ Stmt.AllShaped list) fun r =>
      r.2.isSome = true ∧ Locals r.1
  | [] => by
    unfold stmts
    exact .pure fun h => ⟨rfl, h.1.locals⟩
  | x :: rest => by
    unfold stmts
    refine Watch.Ensures.full.bind fun full => ?_
    split
    next hfull => exact .pure fun h => absurd hfull (by simp [h.2])
    next =>
      have hvalues : Ensures (stmt ⟨env, consts, result⟩ s x)
          (StandsIn ⟨env, consts, result⟩ s funcs Δ vars C ∧ x.Shaped) _ :=
        stmt_ensures hsource.values vars x
      refine Watch.Ensures.bind (Q := fun r => ∃ vars', EnvOk (env.enter r.1) funcs Δ vars' ∧
        r.2.isSome = true ∧ Locals r.1) (((stmt_answers hsource vars x).also hsource.refines
          hvalues).imp (fun h => ?_) fun _ r h => ?_) fun (s₁, r) => ?_
      · have hshape := (by simpa [Stmt.AllShaped] using h.1.2 : _ ∧ _).1
        exact ⟨⟨h.1.1.stands, hshape⟩, h.1.1, hshape⟩
      · obtain ⟨⟨vars', henv, _⟩, hsome, hlocals⟩ := h
        exact ⟨vars', henv, hsome, hlocals⟩
      refine Watch.Ensures.of_exists fun vars₁ => ?_
      refine ((stmts_answers hsource vars₁ rest).imp
        (fun h => ⟨h.1.1.1.next h.2.1 h.2.2.2, ?_⟩) fun _ _ h => h).bind fun (s₂, rs) => ?_
      · exact (by simpa [Stmt.AllShaped] using h.1.1.2 : _ ∧ _).2
      dsimp only
      split
      next => exact .pure fun h => ⟨rfl, h.2.2⟩
      next hnone =>
        refine .pure fun h => ?_
        obtain ⟨⟨_, _, hfirst, _⟩, hrest, _⟩ := h
        obtain ⟨t, rfl⟩ := Option.isSome_iff_exists.1 hfirst
        obtain ⟨ts, rfl⟩ := Option.isSome_iff_exists.1 hrest
        exact (hnone _ _ rfl rfl).elim

end

end Check

end ClassLang

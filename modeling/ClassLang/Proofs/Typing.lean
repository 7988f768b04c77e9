import ClassLang.Check.Stmt
import ClassLang.Proofs.Check.Collect

/-!
When a checked tree is well typed, said on the tree alone. A unit that passes the
checker consists of such trees; whatever later works on them relies on this and
not on the checker.
-/

namespace ClassLang

namespace Ty

/-- The arguments of a type: those of an instance, and none for any other. -/
def args : Ty → List Ty
  | .inst _ args => args
  | _ => []

end Ty

namespace Signature

variable {ar : String → Option Nat} {ps qs : List TypeParam} {as : List Ty} {s : Signature}

theorem Scoped.mono (h : s.Scoped ar ps) (hsub : ∀ p ∈ ps, p ∈ qs) : s.Scoped ar qs :=
  ⟨fun t ht => ⟨(h.1 t ht).1.mono hsub, (h.1 t ht).2⟩, h.2.mono hsub⟩

theorem Scoped.result_subst (h : s.Scoped ar ps) (hlen : as.length = ps.length)
    (has : Ty.ScopedAll ar qs as) : (s.subst ps as).result = s.result.subst ps as :=
  Signature.result_subst (h.2.subst hlen has)

theorem Scoped.params_subst (h : s.Scoped ar ps) (hlen : as.length = ps.length)
    (has : Ty.ScopedAll ar qs as) : ∀ t ∈ (s.subst ps as).paramTypes, t.Scoped ar qs := by
  intro t ht
  rw [paramTypes_subst] at ht
  obtain ⟨u, hu, rfl⟩ := List.mem_map.1 ht
  exact (h.1 u hu).1.subst hlen has

theorem length_subst (ps : List TypeParam) (as : List Ty) (s : Signature) :
    (s.subst ps as).params.length = s.params.length := by
  unfold subst
  split <;> simp

end Signature

namespace Table

/-- A value of type `s` can be used where one of type `target` is expected: the
types are the same, or `target` is an ancestor of the class of `s`. -/
def Fits (t : Table) (s target : Ty) : Prop :=
  s = target ∨ ∃ name c, target = .cls name ∧ s.className? = some c ∧
    Check.isAncestorName t name c = true

/-- The class of the values of a type. -/
def classOf? (t : Table) (ty : Ty) : Option ClassInfo := ty.className?.bind t.classNamed?

/-- Every member has a type that is known in its class, and methods have no type
parameters of their own. -/
structure WellTyped (t : Table) : Prop where
  linked : t.Linked
  overrides : t.Overrides
  field_types : ∀ c ∈ t.classes, ∀ f ∈ c.fields,
    f.ty.Scoped t.arity c.tparams ∧ f.ty.isVoid = false
  field_names : ∀ c ∈ t.classes, (c.fields.map (·.name)).Nodup
  field_fresh : ∀ c ∈ t.classes, ∀ p, c.parent = some p → ∀ f ∈ c.fields,
    t.lookupField p f.name = none
  method_types : ∀ c ∈ t.classes, ∀ m ∈ c.methods,
    m.sig.Scoped t.arity c.tparams ∧ m.sig.tparams = []
  method_names : ∀ c ∈ t.classes, (c.methods.map (·.name)).Nodup
  method_owner : ∀ c ∈ t.classes, ∀ m ∈ c.methods, m.owner = c.name
  bounds : Check.BoundsClosed t

/-! Members as they are seen from a class -/

section

variable {t : Table} {i : Nat} {c : ClassInfo} {name : String}

theorem WellTyped.parent_tparams (h : t.WellTyped) (hc : t.class? i = some c) {p : Nat}
    (hp : c.parent = some p) : ∃ d, t.class? p = some d ∧ d.tparams = [] := by
  have hlt := h.linked.closed i p (by simp [hc, hp])
  obtain ⟨d, hd⟩ := class?_isSome hlt
  have hplain := h.linked.parent_plain (i := i) (by simp [hc, hp]) hd
  exact ⟨d, hd, by simpa [ClassInfo.isGeneric] using hplain⟩

theorem field?_mem {f : Field} (h : c.field? name = some f) : f ∈ c.fields ∧ f.name = name :=
  ⟨List.mem_of_find?_eq_some h, by simpa using List.find?_some h⟩

/-- The type of a field is known in every class that has the field. -/
theorem WellTyped.lookupField_scoped (h : t.WellTyped) (hc : t.class? i = some c) {f : Field}
    (hf : t.lookupField i name = some f) :
    f.name = name ∧ f.ty.Scoped t.arity c.tparams ∧ f.ty.isVoid = false := by
  refine h.linked.ascend (motive := fun i => ∀ c f, t.class? i = some c →
    t.lookupField i name = some f → f.name = name ∧ f.ty.Scoped t.arity c.tparams ∧
      f.ty.isVoid = false) ?_ (class?_eq_some_lt hc) c f hc hf
  intro k c hk ih c' f hc' hf
  obtain rfl : c = c' := by simpa [hk] using hc'
  rw [lookupField_of_class h.linked hk] at hf
  cases hown : c.field? name with
  | some own =>
      obtain rfl : own = f := by simpa [hown] using hf
      obtain ⟨hmem, hname⟩ := field?_mem hown
      exact ⟨hname, h.field_types c (List.mem_of_getElem? hk) own hmem⟩
  | none =>
      obtain ⟨p, hp, hf⟩ : ∃ p, c.parent = some p ∧ t.lookupField p name = some f := by
        simpa [hown, Option.bind_eq_some_iff] using hf
      obtain ⟨d, hd, hnil⟩ := h.parent_tparams hk hp
      obtain ⟨hname, hscoped, hvoid⟩ := ih p hp d f hd hf
      rw [hnil] at hscoped
      exact ⟨hname, hscoped.mono (by simp), hvoid⟩

theorem lookupField_isSome {f : Field} (h : f ∈ t.flatFields i) :
    (t.lookupField i f.name).isSome = true := by
  obtain ⟨c, hc, hf⟩ := List.mem_flatMap.1 h
  refine List.findSome?_isSome_iff.2 ⟨c, List.mem_reverse.1 hc, ?_⟩
  exact List.find?_isSome.2 ⟨f, hf, by simp⟩

theorem lookupField_mem {f : Field} (h : t.lookupField i name = some f) :
    f ∈ t.flatFields i ∧ f.name = name := by
  obtain ⟨c, hc, hf⟩ := List.exists_of_findSome?_eq_some h
  obtain ⟨hmem, hname⟩ := field?_mem hf
  exact ⟨List.mem_flatMap.2 ⟨c, List.mem_reverse.2 hc, hmem⟩, hname⟩

/-- The fields of a class, inherited ones included, have names of their own. -/
theorem WellTyped.flatFields_nodup (h : t.WellTyped) (hi : i < t.classes.length) :
    ((t.flatFields i).map (·.name)).Nodup := by
  refine h.linked.ascend (motive := fun i => ((t.flatFields i).map (·.name)).Nodup) ?_ hi
  intro k c hk ih
  have hmem := List.mem_of_getElem? hk
  cases hp : c.parent with
  | none =>
      rw [flatFields_of_root h.linked hk hp]
      exact h.field_names c hmem
  | some p =>
      rw [flatFields_of_parent h.linked hk hp, List.map_append]
      refine List.nodup_append.2 ⟨ih p hp, h.field_names c hmem, ?_⟩
      rintro a ha b hb rfl
      obtain ⟨f, hf, rfl⟩ := List.mem_map.1 ha
      obtain ⟨g, hg, heq⟩ := List.mem_map.1 hb
      have hfresh := h.field_fresh c hmem p hp g hg
      have hsome := lookupField_isSome hf
      rw [← heq, hfresh] at hsome
      cases hsome

/-- A class has no other field of the name of one of its fields. -/
theorem WellTyped.lookupField_eq (h : t.WellTyped) (hi : i < t.classes.length) {f : Field}
    (hf : f ∈ t.flatFields i) : t.lookupField i f.name = some f := by
  obtain ⟨g, hg⟩ := Option.isSome_iff_exists.1 (lookupField_isSome hf)
  obtain ⟨hmem, hname⟩ := lookupField_mem hg
  rw [hg, List.inj_on_of_nodup_map (h.flatFields_nodup hi) hmem hf hname]

/-- The signature of a method is known in every class that has the method. -/
theorem WellTyped.lookupMethod_scoped (h : t.WellTyped) (hc : t.class? i = some c) {m : Method}
    (hm : t.lookupMethod i name = some m) :
    m.name = name ∧ m.sig.Scoped t.arity c.tparams ∧ m.sig.tparams = [] := by
  refine h.linked.ascend (motive := fun i => ∀ c m, t.class? i = some c →
    t.lookupMethod i name = some m → m.name = name ∧ m.sig.Scoped t.arity c.tparams ∧
      m.sig.tparams = []) ?_ (class?_eq_some_lt hc) c m hc hm
  intro k c hk ih c' m hc' hm
  obtain rfl : c = c' := by simpa [hk] using hc'
  rw [lookupMethod_of_class h.linked hk] at hm
  cases hown : c.method? name with
  | some own =>
      obtain rfl : own = m := by simpa [hown] using hm
      obtain ⟨hmem, hname⟩ := method?_mem hown
      exact ⟨hname, h.method_types c (List.mem_of_getElem? hk) own hmem⟩
  | none =>
      obtain ⟨p, hp, hm⟩ : ∃ p, c.parent = some p ∧ t.lookupMethod p name = some m := by
        simpa [hown, Option.bind_eq_some_iff] using hm
      obtain ⟨d, hd, hnil⟩ := h.parent_tparams hk hp
      obtain ⟨hname, hscoped, htparams⟩ := ih p hp d m hd hm
      rw [hnil] at hscoped
      exact ⟨hname, hscoped.mono (by simp), htparams⟩

/-- The arguments of a type that is known fit the parameters of its class. -/
theorem classOf?_args {Δ : List TypeParam} {ty : Ty} (hty : ty.Scoped t.arity Δ)
    (hc : t.classOf? ty = some c) :
    ty.args.length = c.tparams.length ∧ Ty.ScopedAll t.arity Δ ty.args := by
  cases ty with
  | cls name =>
      have hfound : t.classNamed? name = some c := by simpa [classOf?, Ty.className?] using hc
      have harity : c.tparams.length = 0 := by simpa [Ty.Scoped, arity, hfound] using hty
      exact ⟨by simp [Ty.args, harity], by simp [Ty.args, Ty.ScopedAll]⟩
  | inst name args =>
      have hfound : t.classNamed? name = some c := by simpa [classOf?, Ty.className?] using hc
      simp only [Ty.Scoped, arity, hfound, Option.map_some, Option.some.injEq] at hty
      exact ⟨hty.1.symm, hty.2.2⟩
  | _ => simp [classOf?, Ty.className?] at hc

theorem classOf?_mem {ty : Ty} (hc : t.classOf? ty = some c) : c ∈ t.classes := by
  obtain ⟨name, _, hfound⟩ := Option.bind_eq_some_iff.1 hc
  exact List.mem_of_find?_eq_some hfound

end

end Table

namespace Constant

/-- What an operation on constants that may be unknown gives. -/
def fold (op : BinaryOp) (a b : Option Constant) : Option Constant :=
  a.bind fun a => b.bind (binary op a)

/-- Constants have basic types. -/
theorem Fits.basic {c : Constant} {ty : Ty} (h : c.Fits ty) : ty.isBasic = true := by
  cases c <;> cases ty <;> simp_all [Fits, Ty.isBasic, Ty.isNumeric, Ty.isInt, Ty.isFloat,
    Ty.isBool, Ty.isStr]

end Constant

theorem Ty.scoped_of_isBasic {ar : String → Option Nat} {Δ : List TypeParam} {t : Ty}
    (h : t.isBasic = true) : t.Scoped ar Δ := by
  cases t <;> simp_all [Ty.isBasic, Ty.isNumeric, Ty.isInt, Ty.isFloat, Ty.isBool, Ty.isStr,
    Ty.Scoped]

namespace Typed

/-- What the body of a function is typed against: the table of the unit, its
functions with whether they are host functions, and the type parameters known in
the body. -/
structure Context where
  table : Table
  funcs : List (String × Bool × Signature)
  tparams : List TypeParam

namespace Context

/-- The members and functions of a context have types that are known to it. -/
structure Sound (Γ : Context) : Prop where
  table : Γ.table.WellTyped
  funcs : ∀ name host sig, Γ.funcs.lookup name = some (host, sig) →
    sig.Scoped Γ.table.arity sig.tparams

/-- The arguments of a generic class or function: as many as it has parameters, and
each one admitted. -/
structure Instance (Γ : Context) (ps : List TypeParam) (args : List Ty) : Prop where
  length : args.length = ps.length
  known : Ty.ScopedAll Γ.table.arity Γ.tparams args
  admits : ∀ e ∈ ps.zip args, Γ.table.Admits e.1 e.2

end Context

/-- Whether an operator is defined on an operand of a type. -/
def unaryDefined : UnaryOp → Ty → Bool
  | .not, t => t.isBool
  | .neg, t => t.isNumeric

namespace Expr

/-- An expression is well typed where the variables `vars` are visible, the
innermost first. -/
inductive Ok (Γ : Context) (vars : List Var) : Expr → Prop
  | var {id : Ident} {v : Var} (found : vars.find? (·.name = id.text) = some v)
      (known : v.ty.Scoped Γ.table.arity Γ.tparams) (value : v.ty.isVoid = false) :
      Ok Γ vars (.var id v)
  | const {id : Ident} {sym : Symbol} {ty : Ty} {c : Constant} (fits : c.Fits ty) :
      Ok Γ vars (.const id sym ty c)
  | literal {pos : Pos} {kind : LitKind} {text : String} {ty : Ty} {c : Constant}
      (fits : c.Fits ty) : Ok Γ vars (.literal pos kind text ty c)
  | unary {pos : Pos} {op : UnaryOp} {x : Expr} {value : Option Constant} (operand : Ok Γ vars x)
      (defined : unaryDefined op x.ty = true) (fits : ∀ c ∈ value, c.Fits x.ty)
      (folds : value = x.value?.bind (Constant.unary op)) :
      Ok Γ vars (.unary pos op x x.ty value)
  | binary {op : BinaryOp} {x y : Expr} {value : Option Constant} (left : Ok Γ vars x)
      (right : Ok Γ vars y) (same : x.ty = y.ty)
      (defined : Check.BinaryOp.defined op x.ty = true)
      (fits : ∀ c ∈ value, c.Fits (Check.BinaryOp.result op x.ty))
      (folds : value = Constant.fold op x.value? y.value?)
      (divisor : ∀ a ∈ x.value?, ∀ b ∈ y.value?, op = .div ∨ op = .rem → b.isZero = false) :
      Ok Γ vars (.binary op x y (Check.BinaryOp.result op x.ty) value)
  | call {fn id : Ident} {host : Bool} {targs : List Ty} {sig : Signature} {args : List Expr}
      (func : Γ.funcs.lookup fn.text = some (host, sig)) (name : id.text = fn.text)
      (inst : Γ.Instance sig.tparams targs)
      (count : args.length = sig.params.length) (operands : ∀ x ∈ args, Ok Γ vars x)
      (fit : ∀ e ∈ args.zip (sig.subst sig.tparams targs).paramTypes, Γ.table.Fits e.1.ty e.2) :
      Ok Γ vars (.call fn (.func id host) targs (sig.subst sig.tparams targs) args)
  | invoke {x : Expr} {sel : Ident} {c : ClassInfo} {m : Method} {args : List Expr}
      (receiver : Ok Γ vars x) (cls : Γ.table.classOf? x.ty = some c)
      (method : Γ.table.lookupMethod c.id sel.text = some m)
      (count : args.length = m.sig.params.length) (operands : ∀ y ∈ args, Ok Γ vars y)
      (fit : ∀ e ∈ args.zip (m.sig.subst c.tparams x.ty.args).paramTypes,
        Γ.table.Fits e.1.ty e.2) :
      Ok Γ vars (.invoke x sel (Check.dispatch Γ.table c.id sel.text) m
        (m.sig.subst c.tparams x.ty.args) args)
  | invokeBound {x : Expr} {sel : Ident} {p : TypeParam} {b : BoundInfo} {m : Method}
      {args : List Expr} (receiver : Ok Γ vars x) (param : x.ty = .param p)
      (bound : p.bound.bind Γ.table.boundNamed? = some b)
      (method : b.method? sel.text = some m)
      (count : args.length = m.sig.params.length) (operands : ∀ y ∈ args, Ok Γ vars y)
      (fit : ∀ e ∈ args.zip m.sig.paramTypes, Γ.table.Fits e.1.ty e.2) :
      Ok Γ vars (.invoke x sel .bound m m.sig args)
  | field {x : Expr} {sel : Ident} {c : ClassInfo} {f : Field} (receiver : Ok Γ vars x)
      (cls : Γ.table.classOf? x.ty = some c)
      (found : Γ.table.lookupField c.id sel.text = some f) :
      Ok Γ vars (.field x sel f (f.ty.subst c.tparams x.ty.args))
  | init {cls : Ident} {sym : Symbol} {c : ClassInfo} {targs : List Ty}
      {elems : List (Ident × Expr)} (found : Γ.table.classNamed? cls.text = some c)
      (inst : Γ.Instance c.tparams targs)
      (keys : (elems.map (·.1.text)).Perm ((Γ.table.flatFields c.id).map (·.name)))
      (operands : ∀ e ∈ elems, Ok Γ vars e.2)
      (fit : ∀ e ∈ elems, ∀ f ∈ Γ.table.flatFields c.id, f.name = e.1.text →
        Γ.table.Fits e.2.ty (f.ty.subst c.tparams targs)) :
      Ok Γ vars (.init cls sym (if c.isGeneric then .inst c.name targs else .cls c.name)
        (Γ.table.flatFields c.id) elems)
  | paren {pos : Pos} {x : Expr} (inner : Ok Γ vars x) : Ok Γ vars (.paren pos x)

/-- The type of a well typed expression is known. -/
theorem Ok.scoped {Γ : Context} (hΓ : Γ.Sound) {vars : List Var} {e : Expr} (h : e.Ok Γ vars) :
    e.ty.Scoped Γ.table.arity Γ.tparams := by
  induction h with
  | var _ known _ => exact known
  | const fits => exact Ty.scoped_of_isBasic fits.basic
  | literal fits => exact Ty.scoped_of_isBasic fits.basic
  | unary _ _ _ _ ih => exact ih
  | @binary op _ _ _ _ _ _ _ _ _ _ ih _ =>
      simp only [Expr.ty, Check.BinaryOp.result]
      split
      · simp [Ty.Scoped]
      · exact ih
  | @call fn id host targs sig args func _ inst =>
      have hsig := hΓ.funcs _ _ _ func
      simp only [Expr.ty]
      rw [hsig.result_subst inst.length inst.known]
      exact hsig.2.subst inst.length inst.known
  | @invoke x sel c m args _ cls method _ _ _ ih _ =>
      obtain ⟨hlen, hargs⟩ := Table.classOf?_args ih cls
      have hclass := hΓ.table.linked.class?_id (Table.classOf?_mem cls)
      obtain ⟨_, hsig, _⟩ := hΓ.table.lookupMethod_scoped hclass method
      simp only [Expr.ty]
      rw [hsig.result_subst hlen hargs]
      exact hsig.2.subst hlen hargs
  | @invokeBound x sel p b m args _ _ bound method =>
      obtain ⟨name, _, hb⟩ := Option.bind_eq_some_iff.1 bound
      have hsig := hΓ.table.bounds b (List.mem_of_find?_eq_some hb) m
        (List.mem_of_find?_eq_some method)
      exact hsig.1.2.mono (by simp)
  | @field x sel c f _ cls found ih =>
      obtain ⟨hlen, hargs⟩ := Table.classOf?_args ih cls
      have hclass := hΓ.table.linked.class?_id (Table.classOf?_mem cls)
      obtain ⟨_, hf, _⟩ := hΓ.table.lookupField_scoped hclass found
      exact hf.subst hlen hargs
  | @init cls sym c targs elems found inst _ _ _ _ =>
      have hmem : c ∈ Γ.table.classes := List.mem_of_find?_eq_some found
      have harity : Γ.table.arity c.name = some c.tparams.length := by
        simp [Table.arity, hΓ.table.linked.classNamed?_name hmem]
      simp only [Expr.ty]
      split
      next hgeneric =>
        have hne : c.tparams ≠ [] := by simpa [ClassInfo.isGeneric] using hgeneric
        simpa [Ty.Scoped, harity, inst.length, List.length_pos_iff.2 hne] using inst.known
      next hplain =>
        have hnil : c.tparams = [] := by simpa [ClassInfo.isGeneric] using hplain
        simp [Ty.Scoped, harity, hnil]
  | paren _ ih => exact ih

/-- A value that is known fits the type of its expression. -/
theorem Ok.value_fits {Γ : Context} {vars : List Var} {e : Expr} (h : e.Ok Γ vars)
    {c : Constant} (hc : e.value? = some c) : c.Fits e.ty := by
  induction h with
  | const fits | literal fits =>
      obtain rfl := Option.some.inj hc
      exact fits
  | unary _ _ fits => exact fits c hc
  | binary _ _ _ _ fits => exact fits c hc
  | paren _ ih => exact ih hc
  | _ => simp [value?] at hc

theorem ty_unparen (x : Expr) : x.unparen.ty = x.ty := by
  induction x using Expr.unparen.induct with
  | case1 pos x ih => exact ih
  | case2 x hne =>
      rw [Expr.unparen]
      exact hne

theorem Ok.unparen {Γ : Context} {vars : List Var} {x : Expr} (h : x.Ok Γ vars) :
    x.unparen.Ok Γ vars := by
  induction x using Expr.unparen.induct with
  | case1 pos x ih =>
      cases h with
      | paren inner => exact ih inner
  | case2 x hx =>
      cases x with
      | paren pos y => exact absurd rfl (hx pos y)
      | _ => exact h

end Expr

mutual

/-- A statement is well typed in a function with the result type `result` where the
variables `vars` are visible; behind it `vars'` are. -/
inductive Stmt.Ok (Γ : Context) (result : Ty) : List Var → Stmt → List Var → Prop
  | empty {vars : List Var} {pos : Pos} : Stmt.Ok Γ result vars (.empty pos) vars
  | expr {vars : List Var} {x : Expr} (ok : x.Ok Γ vars) (call : Check.isCall x.unparen = true) :
      Stmt.Ok Γ result vars (.expr x) vars
  | bind {vars : List Var} {pos : Pos} {v : Var} {term : TypeTerm} {x : Expr} (ok : x.Ok Γ vars)
      (known : v.ty.Scoped Γ.table.arity Γ.tparams) (value : v.ty.isVoid = false)
      (fits : Γ.table.Fits x.ty v.ty) : Stmt.Ok Γ result vars (.bind pos v term x) (v :: vars)
  | assign {vars : List Var} {x y : Expr} (left : x.Ok Γ vars) (assignable : x.isVariable = true)
      (right : y.Ok Γ vars) (fits : Γ.table.Fits y.ty x.ty) :
      Stmt.Ok Γ result vars (.assign x y) vars
  | block {vars vars' : List Var} {b : List Stmt} (body : StmtsOk Γ result vars b vars') :
      Stmt.Ok Γ result vars (.block (.mk b)) vars
  | ifThen {vars vars' : List Var} {cond : Expr} {b : List Stmt} (ok : cond.Ok Γ vars)
      (bool : cond.ty = .bool) (body : StmtsOk Γ result vars b vars') :
      Stmt.Ok Γ result vars (.ifElse cond (.mk b) none) vars
  | ifElse {vars vars' : List Var} {cond : Expr} {b : List Stmt} {other : Stmt}
      (ok : cond.Ok Γ vars) (bool : cond.ty = .bool) (body : StmtsOk Γ result vars b vars')
      (alternative : Stmt.Ok Γ result vars other vars) :
      Stmt.Ok Γ result vars (.ifElse cond (.mk b) (some other)) vars
  | whileLoop {vars vars' : List Var} {cond : Expr} {b : List Stmt} (ok : cond.Ok Γ vars)
      (bool : cond.ty = .bool) (body : StmtsOk Γ result vars b vars') :
      Stmt.Ok Γ result vars (.whileLoop cond (.mk b)) vars
  | forLoop {vars vars' : List Var} {pos start : Pos} {v : Var} {low high : Expr}
      {b : List Stmt} (lowOk : low.Ok Γ vars) (lowInt : low.ty = .int) (highOk : high.Ok Γ vars)
      (highInt : high.ty = .int) (int : v.ty = .int)
      (body : StmtsOk Γ result (v :: vars) b vars') :
      Stmt.Ok Γ result vars (.forLoop pos v start low high (.mk b)) vars
  | ret {vars : List Var} {pos : Pos} (void : result.isVoid = true) :
      Stmt.Ok Γ result vars (.ret pos none) vars
  | retValue {vars : List Var} {pos : Pos} {x : Expr} (ok : x.Ok Γ vars)
      (value : result.isVoid = false) (fits : Γ.table.Fits x.ty result) :
      Stmt.Ok Γ result vars (.ret pos (some x)) vars

/-- Statements that follow each other. -/
inductive StmtsOk (Γ : Context) (result : Ty) : List Var → List Stmt → List Var → Prop
  | nil {vars : List Var} : StmtsOk Γ result vars [] vars
  | cons {vars vars' vars'' : List Var} {s : Stmt} {rest : List Stmt}
      (first : Stmt.Ok Γ result vars s vars') (rest_ok : StmtsOk Γ result vars' rest vars'') :
      StmtsOk Γ result vars (s :: rest) vars''

end

mutual

/-- Whether a statement returns on every path. -/
def Stmt.returns : Stmt → Bool
  | .ret .. => true
  | .block body => body.returns
  | .ifElse _ body (some other) => body.returns && other.returns
  | _ => false

/-- Whether a block returns on every path. -/
def Block.returns : Block → Bool
  | .mk stmts => returnsAny stmts

/-- Whether one of several statements returns on every path. -/
def returnsAny : List Stmt → Bool
  | [] => false
  | s :: rest => s.returns || returnsAny rest

end

mutual

/-- Where the variables of a statement are declared, in source order. -/
def Stmt.binders : Stmt → List Pos
  | .bind _ v _ _ => [v.pos]
  | .block body => body.binders
  | .ifElse _ body none => body.binders
  | .ifElse _ body (some other) => body.binders ++ other.binders
  | .whileLoop _ body => body.binders
  | .forLoop _ v _ _ _ body => v.pos :: body.binders
  | _ => []

@[inherit_doc Stmt.binders]
def Block.binders : Block → List Pos
  | .mk stmts => bindersAll stmts

@[inherit_doc Stmt.binders]
def bindersAll : List Stmt → List Pos
  | [] => []
  | s :: rest => s.binders ++ bindersAll rest

end

/-! Functions and units -/

namespace Header

/-- The variables that a body sees from its header, the last parameter first. -/
def vars (h : Header) : List Var := (h.recv.toList ++ h.params.map (·.1)).reverse

end Header

namespace Func

/-- Where the variables of a function are declared. -/
def binders (g : Func) : List Pos :=
  g.header.recv.toList.map (·.pos) ++ g.header.params.map (·.1.pos) ++
    (g.body.map Block.binders).getD []

/-- A function is well typed: its variables have types that are known, and so has its
body, which returns if it has to. -/
structure Ok (Γ : Context) (g : Func) : Prop where
  params : g.header.sig.params = g.header.params.map fun e => ⟨e.1.name, e.1.pos, e.1.ty⟩
  types : ∀ v ∈ g.header.vars, v.ty.Scoped Γ.table.arity Γ.tparams ∧ v.ty.isVoid = false
  result : g.header.sig.result.Scoped Γ.table.arity Γ.tparams
  body : ∀ b ∈ g.body, ∃ vars', StmtsOk Γ g.header.sig.result g.header.vars b.stmts vars'
  returns : ∀ b ∈ g.body, g.header.sig.result.isVoid = false → b.returns = true

end Func

namespace File

/-- The functions of a unit by name, with whether they are host functions. -/
def signatures (f : File) : List (String × Bool × Signature) :=
  f.funcs.map fun g => (g.decl.name.text, g.decl.host, g.header.sig)

/-- What a body of a unit is typed against, where the type parameters `Δ` are known. -/
def context (f : File) (Δ : List TypeParam) : Context := ⟨f.table, f.signatures, Δ⟩

/-- The function `g` is what the method `m` of the class `c` stands for. -/
structure Implements (f : File) (c : ClassInfo) (m : Method) (g : Func) : Prop where
  ref : g.ref = m.ref
  sig : g.header.sig = m.sig
  recv : ∃ v, g.header.recv = some v ∧ v.ty = Check.selfType c
  ok : g.Ok (f.context c.tparams)

/-- The functions of a unit are well typed, and each one that can be called is there. -/
structure Ok (f : File) : Prop where
  sound : (f.context []).Sound
  refs : (f.bodies.map (·.ref)).Nodup
  names : (f.funcs.map (·.decl.name.text)).Nodup
  funcs : ∀ g ∈ f.funcs, g.ref = .func g.decl.name.text ∧ g.header.recv = none ∧
    (g.decl.host = true → g.header.sig.tparams = []) ∧ g.Ok (f.context g.header.sig.tparams)
  free : ∀ g ∈ f.funcs, g.decl.recv = none
  methods : ∀ c ∈ f.table.classes, ∀ m ∈ c.methods, ∃ g ∈ f.bodies, f.Implements c m g
  bodies : ∀ g ∈ f.bodies, g ∈ f.funcs ∨
    ∃ c ∈ f.table.classes, ∃ m ∈ c.methods, f.Implements c m g
  bodied : ∀ g ∈ f.bodies, g.body.isSome = true
  binders : ∀ g ∈ f.bodies, g.binders.Nodup

end File

end Typed

end ClassLang

/-!
The expressions that a checked function consists of. Whatever stands somewhere in a
function that is well typed is well typed where it stands.
-/

namespace ClassLang.Typed

/-! Expressions -/

namespace Expr

/-- The expressions that an expression is made of. -/
def children : Expr → List Expr
  | .unary _ _ x _ _ | .field x _ _ _ | .paren _ x => [x]
  | .binary _ x y _ _ => [x, y]
  | .call _ _ _ _ args => args
  | .invoke x _ _ _ _ args => x :: args
  | .init _ _ _ _ elems => elems.map (·.2)
  | .var .. | .const .. | .literal .. => []

/-- `e` stands somewhere in an expression. -/
inductive PartOf (e : Expr) : Expr → Prop
  | refl : PartOf e e
  | child {x y : Expr} (mem : y ∈ x.children) (inner : PartOf e y) : PartOf e x

variable {Γ : Context} {vars : List Var} {e x : Expr}

theorem Ok.children (h : x.Ok Γ vars) : ∀ y ∈ x.children, y.Ok Γ vars := by
  intro y hy
  cases h with
  | var | const | literal => simp [Expr.children] at hy
  | unary operand => simpa [Expr.children, List.mem_singleton.1 hy] using operand
  | binary left right =>
      rcases List.mem_pair.1 hy with rfl | rfl
      · exact left
      · exact right
  | call _ _ _ _ operands => exact operands y hy
  | invoke receiver _ _ _ operands | invokeBound receiver _ _ _ _ operands =>
      rcases List.mem_cons.1 hy with rfl | hy
      · exact receiver
      · exact operands y hy
  | field receiver => simpa [Expr.children, List.mem_singleton.1 hy] using receiver
  | init _ _ _ operands =>
      obtain ⟨elem, helem, rfl⟩ := List.mem_map.1 hy
      exact operands elem helem
  | paren inner => simpa [Expr.children, List.mem_singleton.1 hy] using inner

theorem Ok.part (h : x.Ok Γ vars) (hpart : e.PartOf x) : e.Ok Γ vars := by
  induction hpart with
  | refl => exact h
  | child mem _ ih => exact ih (h.children _ mem)

end Expr

/-! Statements -/

namespace Stmt

/-- The expressions that a statement itself evaluates. -/
def exprs : Stmt → List Expr
  | .expr x | .bind _ _ _ x | .ret _ (some x) => [x]
  | .assign x y => [x, y]
  | .ifElse cond _ _ | .whileLoop cond _ => [cond]
  | .forLoop _ _ _ low high _ => [low, high]
  | .empty _ | .block _ | .ret _ none => []

/-- The statements that a statement is made of. -/
def children : Stmt → List Stmt
  | .block body | .whileLoop _ body | .forLoop _ _ _ _ _ body => body.stmts
  | .ifElse _ body other => body.stmts ++ other.toList
  | .empty _ | .expr _ | .bind .. | .assign .. | .ret .. => []

/-- The expression `e` stands somewhere in a statement. -/
inductive Holds (e : Expr) : Stmt → Prop
  | own {s : Stmt} {x : Expr} (mem : x ∈ s.exprs) (part : e.PartOf x) : Holds e s
  | child {s s' : Stmt} (mem : s' ∈ s.children) (inner : Holds e s') : Holds e s

end Stmt

variable {Γ : Context} {result : Ty}

theorem StmtsOk.mem {b : List Stmt} : ∀ {vars vars' : List Var}, StmtsOk Γ result vars b vars' →
    ∀ s ∈ b, ∃ vs vs', s.Ok Γ result vs vs' := by
  induction b with
  | nil => exact fun _ s hs => absurd hs List.not_mem_nil
  | cons s₀ rest ih =>
      intro vars vars' h s hs
      cases h with
      | cons first rest_ok =>
          rcases List.mem_cons.1 hs with rfl | hs
          · exact ⟨_, _, first⟩
          · exact ih rest_ok s hs

namespace Stmt

variable {vars vars' : List Var} {s : Stmt}

theorem Ok.exprs (h : s.Ok Γ result vars vars') : ∀ x ∈ s.exprs, x.Ok Γ vars := by
  cases h <;> simp_all [Stmt.exprs]

theorem Ok.children (h : s.Ok Γ result vars vars') :
    ∀ s' ∈ s.children, ∃ vs vs', s'.Ok Γ result vs vs' := by
  intro s' hs'
  cases h with
  | empty | expr | bind | assign | ret | retValue => simp [Stmt.children] at hs'
  | block body | whileLoop _ _ body | forLoop _ _ _ _ _ body => exact body.mem s' hs'
  | ifThen _ _ body =>
      simp only [Stmt.children, Option.toList_none, List.append_nil] at hs'
      exact body.mem s' hs'
  | ifElse _ _ body alternative =>
      simp only [Stmt.children, Option.toList_some, List.mem_append, List.mem_singleton] at hs'
      rcases hs' with hs' | rfl
      · exact body.mem s' hs'
      · exact ⟨_, _, alternative⟩

theorem Ok.holds {e : Expr} (h : s.Ok Γ result vars vars') (he : s.Holds e) :
    ∃ vs, e.Ok Γ vs := by
  induction he generalizing vars vars' with
  | own mem part => exact ⟨vars, (h.exprs _ mem).part part⟩
  | child mem _ ih =>
      obtain ⟨vs, vs', h'⟩ := h.children _ mem
      exact ih h'

end Stmt

/-! Functions -/

namespace Func

/-- The expression `e` stands somewhere in the body of a function. -/
def Holds (g : Func) (e : Expr) : Prop := ∃ b ∈ g.body, ∃ s ∈ b.stmts, s.Holds e

theorem Ok.holds {g : Func} {e : Expr} (h : g.Ok Γ) (he : g.Holds e) : ∃ vs, e.Ok Γ vs := by
  obtain ⟨b, hb, s, hs, he⟩ := he
  obtain ⟨_, hbody⟩ := h.body b hb
  obtain ⟨_, _, hok⟩ := hbody.mem s hs
  exact hok.holds he

end Func

/-- In a unit that is well typed, every expression of a body is well typed against the
table of the unit. -/
theorem File.Ok.holds {f : File} {g : Func} {e : Expr} (h : f.Ok) (hg : g ∈ f.bodies)
    (he : g.Holds e) : ∃ Δ vs, e.Ok (f.context Δ) vs := by
  rcases h.bodies g hg with hfunc | ⟨c, _, m, _, himpl⟩
  · obtain ⟨_, _, _, hok⟩ := h.funcs g hfunc
    exact ⟨_, hok.holds he⟩
  · exact ⟨_, himpl.ok.holds he⟩

end ClassLang.Typed

import ClassLang.Check.Unit

/-!
The check of an expression asks for constants while it runs. What it does depends only on the answers
it gets: with two sources that agree on the sessions that can come up it does the same. And of the
constants folded so far it changes nothing itself, so whatever the source keeps of them, it keeps.
-/

namespace ClassLang

/-- The constant that a literal stands for. -/
def Constant.ofLiteral? : LitKind → String → Option Constant
  | .int, text => (ofIntLiteral? text).map .int
  | .float, text => (ofFloatLiteral? text).map .float
  | .string, text => some (.str text)

namespace Check

variable {α β : Type} {I : List (String × Folding) → Prop}

/-- In every session in which `I` holds of the constants, `m` and `m'` do the same, `I` holds again
afterwards, and the result satisfies `Q`. -/
def Agrees (I : List (String × Folding) → Prop) (m m' : Check α) (Q : α → Prop) : Prop :=
  ∀ s : Session, I s.consts → m.run s = m'.run s ∧ I (m.run s).2.consts ∧ Q (m.run s).1

/-- What `I` says of the constants, `m` keeps. -/
abbrev Keeps (I : List (String × Folding) → Prop) (m : Check α) : Prop :=
  Agrees I m m fun _ => True

namespace Agrees

variable {m m' : Check α} {f f' : α → Check β} {Q Q' : α → Prop} {R : β → Prop}

theorem pure {a : α} (h : Q a) : Agrees I (Pure.pure a) (Pure.pure a) Q :=
  fun _ hs => ⟨rfl, hs, h⟩

theorem bind (hm : Agrees I m m' Q) (hf : ∀ a, Q a → Agrees I (f a) (f' a) R) :
    Agrees I (m >>= f) (m' >>= f') R := by
  intro s hs
  obtain ⟨heq, hmid, hq⟩ := hm s hs
  obtain ⟨heq', hrest⟩ := hf _ hq _ hmid
  exact ⟨heq'.trans (congrArg (fun r => (f' r.1).run r.2) heq), hrest⟩

/-- A step whose result is of no interest. -/
theorem seq {f : α → Check β} (hm : Agrees I m m' Q) (hf : ∀ a, Agrees I (f a) (f' a) R) :
    Agrees I (m >>= f) (m' >>= f') R := hm.bind fun a _ => hf a

theorem imp (hm : Agrees I m m' Q) (h : ∀ a, Q a → Q' a) : Agrees I m m' Q' :=
  fun s hs => ⟨(hm s hs).1, (hm s hs).2.1, h _ (hm s hs).2.2⟩

theorem discard (hm : Agrees I m m' Q) :
    Agrees I (Functor.discard m) (Functor.discard m') fun _ => True := by
  intro s hs
  obtain ⟨heq, hend, _⟩ := hm s hs
  have hunit : ((PUnit.unit, (m.run s).2) : PUnit × Session) = (PUnit.unit, (m'.run s).2) := by
    rw [heq]
  exact ⟨hunit, hend, trivial⟩

theorem report {kind : ErrorKind} {pos : Pos} {message : String} :
    Keeps I (Check.report kind pos message) :=
  fun _ hs => ⟨rfl, hs, trivial⟩

theorem fail {kind : ErrorKind} {pos : Pos} {message : String} {Q : Option α → Prop} (h : Q none) :
    Agrees I (Check.fail kind pos message) (Check.fail kind pos message) Q :=
  report.seq fun _ => .pure h

/-- Bounds that are put off are none of the constants. -/
theorem putOff {d : List Duty} :
    Keeps I (modify fun s : Session => { s with duties := s.duties ++ d }) :=
  fun _ hs => ⟨rfl, hs, trivial⟩

end Agrees

variable {env : Env} {consts consts' : ConstSource}

/-! Types -/

theorem satisfies_keeps {table : Table} {pos : Pos} {ty : Ty} {bound : String} :
    Keeps I (satisfies table pos ty bound) := by
  unfold satisfies
  split
  · exact .pure trivial
  split
  · exact .pure trivial
  split <;> exact Agrees.report.seq fun _ => .pure trivial

theorem typeArg_keeps {pos : Pos} {p : TypeParam} {arg : Ty} :
    Keeps I (typeArg env pos p arg) := by
  unfold typeArg
  split
  · exact Agrees.report.seq fun _ => .pure trivial
  split
  · exact .pure trivial
  split
  · exact Agrees.putOff.seq fun _ => .pure trivial
  · exact satisfies_keeps

theorem typeArgs_keeps {pos : Pos} {list : List (TypeParam × Ty)} :
    Keeps I (typeArgs env pos list) := by
  induction list with
  | nil => exact .pure trivial
  | cons e rest ih => exact typeArg_keeps.seq fun _ => ih.seq fun _ => .pure trivial

/-- A type that turns out to be basic is the name of a basic type. -/
def NamesBasic (env : Env) (t : TypeExpr) (r : Option Typed.TypeTerm) : Prop :=
  ∀ term, r = some term → term.ty.isBasic = true →
    ∃ id, t = .name id ∧ env.lookup id.text = some (.basic term.ty)

theorem namesBasic_none {t : TypeExpr} : NamesBasic env t none := fun _ h => by cases h

theorem namesBasic_of_not {t : TypeExpr} {term : Typed.TypeTerm} (h : term.ty.isBasic = false) :
    NamesBasic env t (some term) := by
  intro term' heq hbasic
  cases heq
  rw [h] at hbasic
  cases hbasic

mutual

theorem type_keeps : (t : TypeExpr) → Agrees I (type env t) (type env t) (NamesBasic env t)
  | .name id => by
    unfold type
    split
    next => exact .fail namesBasic_none
    next t ht =>
      refine .pure fun term heq _ => ⟨id, rfl, ?_⟩
      cases heq
      exact ht
    next => exact .pure (namesBasic_of_not rfl)
    next =>
      split
      next =>
        split
        · exact .fail namesBasic_none
        · exact .pure (namesBasic_of_not rfl)
      next => exact .fail namesBasic_none
    next => exact .fail namesBasic_none
    next => exact .fail namesBasic_none
  | .apply base args => by
    unfold type
    split
    next =>
      split
      next =>
        split
        next =>
          refine (types_keeps args).seq fun r => ?_
          split
          next => exact .pure namesBasic_none
          next =>
            dsimp only
            split
            next => exact .fail namesBasic_none
            next =>
              refine typeArgs_keeps.seq fun ok => ?_
              split
              · exact .pure (namesBasic_of_not rfl)
              · exact .pure namesBasic_none
        next => exact .fail namesBasic_none
      next => exact .fail namesBasic_none
    all_goals exact .fail namesBasic_none

theorem types_keeps : (ts : List TypeExpr) → Keeps I (types env ts)
  | [] => by
    unfold types
    exact .pure trivial
  | t :: rest => by
    unfold types
    refine (type_keeps t).seq fun r => ?_
    split
    next => exact .pure trivial
    next =>
      refine (types_keeps rest).seq fun r' => ?_
      split <;> exact .pure trivial

end

theorem hasValue_keeps {x : Operand} : Keeps I (hasValue x) := by
  unfold hasValue
  split
  · exact Agrees.report.seq fun _ => .pure trivial
  · exact .pure trivial

theorem assignable_keeps {table : Table} {x : Operand} {target : Ty} {purpose : String} :
    Keeps I (assignable table x target purpose) := by
  unfold assignable
  refine hasValue_keeps.seq fun ok => ?_
  split
  · exact .pure trivial
  split
  · exact .pure trivial
  split
  · exact .pure trivial
  dsimp only
  split
  · split
    · exact .pure trivial
    · exact Agrees.report.seq fun _ => .pure trivial
  · exact Agrees.report.seq fun _ => .pure trivial

theorem assignableAll_keeps {table : Table} {list : List (Operand × Ty × String)} :
    Keeps I (assignableAll table list) := by
  induction list with
  | nil => exact .pure trivial
  | cons e rest ih => exact assignable_keeps.seq fun _ => ih.seq fun _ => .pure trivial

theorem infer_keeps {pos : Pos} {what : String} {ps : List TypeParam} {types : List Ty}
    {operands : List Operand} : Keeps I (infer env pos what ps types operands) := by
  unfold infer
  split
  · exact .fail trivial
  split
  · exact .fail trivial
  · refine typeArgs_keeps.seq fun ok => ?_
    split <;> exact .pure trivial

theorem arguments_keeps {pos : Pos} {callee : String} {sig : Signature} {args : List Operand} :
    Keeps I (arguments env pos callee sig args) := by
  unfold arguments
  split
  · exact Agrees.report.seq fun _ => .pure trivial
  · exact assignableAll_keeps

theorem target_keeps {x : Operand} {sel : Ident} : Keeps I (target env x sel) := by
  unfold target
  dsimp only
  split
  · split
    · exact .fail trivial
    · split
      · exact .pure trivial
      · exact .fail trivial
  · split
    · exact .fail trivial
    · split
      · exact .fail trivial
      · exact .pure trivial

theorem fillField_keeps {cls : String} {fields : List Field} {filling : Filling} {key : Ident}
    {value : Option Operand} : Keeps I (fillField cls fields filling key value) := by
  unfold fillField
  dsimp only
  split
  · exact Agrees.report.seq fun _ => .pure trivial
  split
  · exact Agrees.report.seq fun _ => .pure trivial
  split
  · exact .pure trivial
  · exact hasValue_keeps.seq fun _ => .pure trivial

/-! Values

What may be the value of an expression is said by a relation `V` between expressions and constants,
which follows the rules by which the checker folds. -/

/-- `V` allows what folding an expression from its parts gives. -/
structure Folding.Rules (env : Env) (V : Expr → Constant → Prop) : Prop where
  truth : ∀ id b, env.lookup id.text = some (.truth b) → V (.name id) (.bool b)
  literal : ∀ pos kind text c, Constant.ofLiteral? kind text = some c →
    V (.literal pos kind text) c
  unary : ∀ pos op x a c, V x a → Constant.unary op a = some c → V (.unary pos op x) c
  binary : ∀ op x y a b c, V x a → V y b → Constant.binary op a b = some c → V (.binary op x y) c
  paren : ∀ pos x c, V x c → V (.paren pos x) c

/-- Two sources agree on the constants that names stand for, and `V` allows what they give. -/
def SourcesAgree (I : List (String × Folding) → Prop) (env : Env) (V : Expr → Constant → Prop)
    (consts consts' : ConstSource) : Prop :=
  ∀ id c, env.lookup id.text = some (.const c) →
    Agrees I (consts c.text) (consts' c.text) fun r => ∀ ty v, r = some (ty, v) → V (.name id) v

/-- The checked expression has no value, or one that `V` allows for `e`. -/
def Valued (V : Expr → Constant → Prop) (e : Expr) (r : Option Typed.Expr) : Prop :=
  ∀ x, r = some x → ∀ c, x.value? = some c → V e c

variable {V : Expr → Constant → Prop} {e : Expr} {x : Typed.Expr}

theorem Valued.none : Valued V e none := fun _ h => by cases h

theorem Valued.some (h : ∀ c, x.value? = some c → V e c) : Valued V e (some x) := by
  intro y heq
  cases heq
  exact h

/-- An expression whose value is never known. -/
theorem Valued.unknown (h : x.value? = Option.none) : Valued V e (Option.some x) :=
  .some fun c hc => by simp [h] at hc

theorem inRange_valued {pos : Pos} {c : Constant} (h : Valued V e (some x)) :
    Agrees I (inRange pos c x) (inRange pos c x) (Valued V e) := by
  unfold inRange
  split
  · exact .fail .none
  · exact .pure h

theorem name_valued (hV : Folding.Rules env V) (hsource : SourcesAgree I env V consts consts')
    {id : Ident} : Agrees I (name env consts id) (name env consts' id) (Valued V (.name id)) := by
  unfold name
  split
  next => exact .fail .none
  next =>
    split
    · exact .pure .none
    · exact .pure (.unknown rfl)
  next b hb =>
    refine .pure (.some fun c hc => ?_)
    cases hc
    exact hV.truth id b hb
  next c hc =>
    refine (hsource id c hc).bind fun r hr => ?_
    split
    next ty v =>
      refine .pure (.some fun c hc => ?_)
      cases hc
      exact hr ty v rfl
    next => exact .pure .none
  next => exact .fail .none
  next => exact .fail .none
  next => exact .fail .none

theorem literal_valued (hV : Folding.Rules env V) {pos : Pos} {kind : LitKind} {text : String} :
    Agrees I (literal pos kind text) (literal pos kind text)
      (Valued V (.literal pos kind text)) := by
  have hread {c : Constant} (h : Constant.ofLiteral? kind text = some c) {ty : Ty} :
      Valued V (.literal pos kind text) (some (.literal pos kind text ty c)) := by
    refine .some fun c' hc' => ?_
    cases hc'
    exact hV.literal pos kind text c h
  unfold literal
  split
  next =>
    split
    next => exact .fail .none
    next n hn => exact inRange_valued (hread (by simp [Constant.ofLiteral?, hn]))
  next =>
    split
    next => exact .fail .none
    next q hq => exact .pure (hread (by simp [Constant.ofLiteral?, hq]))
  next => exact .pure (hread rfl)

theorem unaryOp_valued (hV : Folding.Rules env V) {pos : Pos} {op : UnaryOp} {x : Operand}
    (hx : ∀ c, x.expr.value? = some c → V e c) :
    Agrees I (unaryOp pos op x) (unaryOp pos op x) (Valued V (.unary pos op e)) := by
  unfold unaryOp
  refine hasValue_keeps.seq fun ok => ?_
  split
  · exact .pure .none
  cases op <;> dsimp only <;> split
  case not.isTrue | neg.isTrue => exact .fail .none
  case not.isFalse | neg.isFalse =>
    split
    next c hc =>
      refine inRange_valued (.some fun c' hc' => ?_)
      cases hc'
      obtain ⟨a, ha, hfold⟩ := Option.bind_eq_some_iff.1 hc
      exact hV.unary pos _ e a c (hx a ha) hfold
    next => exact .pure (.unknown rfl)

theorem binaryOp_valued (hV : Folding.Rules env V) {op : BinaryOp} {x y : Operand} {e' : Expr}
    (hx : ∀ c, x.expr.value? = some c → V e c) (hy : ∀ c, y.expr.value? = some c → V e' c) :
    Agrees I (binaryOp op x y) (binaryOp op x y) (Valued V (.binary op e e')) := by
  unfold binaryOp
  refine hasValue_keeps.seq fun ok => ?_
  split
  · exact .pure .none
  refine hasValue_keeps.seq fun ok => ?_
  split
  · exact .pure .none
  dsimp only
  split
  · exact .fail .none
  split
  · exact .fail .none
  split
  next a b ha hb =>
    split
    · exact .fail .none
    split
    next c hc =>
      refine inRange_valued (.some fun c' hc' => ?_)
      cases hc'
      exact hV.binary op e e' a b c (hx a ha) (hy b hb) hc
    next => exact .pure (.unknown rfl)
  next => exact .pure (.unknown rfl)

theorem selection_valued {x : Operand} {sel : Ident} :
    Agrees I (selection env x sel) (selection env x sel) (Valued V e) := by
  unfold selection
  refine hasValue_keeps.seq fun ok => ?_
  split
  · exact .pure .none
  dsimp only
  split
  · exact .fail .none
  split
  · exact .fail .none
  split
  · exact .pure (.unknown rfl)
  · split
    · exact .fail .none
    · exact .fail .none

theorem funcCall_valued {fn : Ident} {sym : Symbol} {sig : Signature}
    {args : Option (List Operand)} :
    Agrees I (funcCall env fn sym sig args) (funcCall env fn sym sig args) (Valued V e) := by
  unfold funcCall
  split
  · exact .pure .none
  next xs =>
    dsimp only
    split
    all_goals
      refine Agrees.seq (Q := fun _ => True) (by first | exact .pure trivial | exact infer_keeps)
        fun targs => ?_
      split
      · exact .pure .none
      refine arguments_keeps.seq fun ok => ?_
      split
      · exact .pure (.unknown rfl)
      · exact .pure .none

theorem methodCall_valued {x : Operand} {sel : Ident} {found : CallKind × Method × Signature}
    {args : Option (List Operand)} :
    Agrees I (methodCall env x sel found args) (methodCall env x sel found args) (Valued V e) := by
  unfold methodCall
  dsimp only
  split
  · exact .pure .none
  refine arguments_keeps.seq fun ok => ?_
  split
  · exact .pure (.unknown rfl)
  · exact .pure .none

theorem initialized_valued {cls : Ident} {sym : Symbol} {c : ClassInfo} {filling : Filling}
    {elems : List (Ident × Typed.Expr)} :
    Agrees I (initialized env cls sym c filling elems) (initialized env cls sym c filling elems)
      (Valued V e) := by
  unfold initialized
  dsimp only
  split
  · exact Agrees.report.seq fun _ => .pure .none
  split
  · exact .pure .none
  split
  all_goals
    refine Agrees.seq (Q := fun _ => True) (by first | exact .pure trivial | exact infer_keeps)
      fun targs => ?_
    split
    · exact .pure .none
    refine assignableAll_keeps.seq fun ok => ?_
    split
    · exact .pure (.unknown rfl)
    · exact .pure .none

/-- What a checked operand may have for a value. -/
def OperandValued (V : Expr → Constant → Prop) (e : Expr) (r : Option Operand) : Prop :=
  ∀ x, r = some x → ∀ c, x.expr.value? = some c → V e c

mutual

/-- With sources that agree the check of an expression does the same, and the value that it finds
is allowed. -/
theorem expr_valued (hV : Folding.Rules env V) (hsource : SourcesAgree I env V consts consts') :
    (e : Expr) → Agrees I (expr env consts e) (expr env consts' e) (Valued V e)
  | .name id => by
    unfold expr
    exact name_valued hV hsource
  | .literal pos kind text => by
    unfold expr
    exact literal_valued hV
  | .unary pos op x => by
    unfold expr
    refine (operand_valued hV hsource x).bind fun r hr => ?_
    split
    · exact .pure .none
    next x' => exact unaryOp_valued hV (hr x' rfl)
  | .binary op x y => by
    unfold expr
    refine (operand_valued hV hsource x).bind fun r hr =>
      (operand_valued hV hsource y).bind fun r' hr' => ?_
    split
    next x' y' => exact binaryOp_valued hV (hr x' rfl) (hr' y' rfl)
    · exact hasValue_keeps.discard.seq fun _ => .pure .none
    · exact .pure .none
  | .call (.name fn) args => by
    unfold expr
    split
    next id host _ =>
      refine (operands_keeps hV hsource args).seq fun r => ?_
      split
      · exact funcCall_valued
      · exact .pure .none
    next =>
      dsimp only
      split
      all_goals
        refine Agrees.report.seq fun _ => ?_
        exact (operands_keeps hV hsource args).discard.seq fun _ => .pure .none
  | .call (.select x sel) args => by
    unfold expr
    have hargs : Agrees I (discard (operands env consts args)) (discard (operands env consts' args))
        fun _ => True := (operands_keeps hV hsource args).discard
    refine (operand_valued hV hsource x).seq fun r => ?_
    split
    next => exact hargs.seq fun _ => .pure .none
    next x' =>
      refine hasValue_keeps.seq fun ok => ?_
      split
      next => exact hargs.seq fun _ => .pure .none
      next =>
        refine target_keeps.seq fun found => ?_
        split
        next => exact hargs.seq fun _ => .pure .none
        next => exact (operands_keeps hV hsource args).seq fun _ => methodCall_valued
  | .call (.literal ..) args | .call (.unary ..) args | .call (.binary ..) args
  | .call (.call ..) args | .call (.init ..) args | .call (.paren ..) args => by
    unfold expr
    refine Agrees.report.seq fun _ => ?_
    exact (operands_keeps hV hsource args).discard.seq fun _ => .pure .none
  | .select x sel => by
    unfold expr
    refine (operand_valued hV hsource x).seq fun r => ?_
    split
    · exact .pure .none
    · exact selection_valued
  | .init cls elems => by
    unfold expr
    split
    next id _ =>
      split
      next c _ =>
        refine (elements_keeps hV hsource {} elems).seq fun r => ?_
        exact initialized_valued
      next => exact .pure .none
    all_goals
      refine Agrees.report.seq fun _ => ?_
      exact (elementValues_keeps hV hsource elems).seq fun _ => .pure .none
  | .paren pos x => by
    unfold expr
    refine (expr_valued hV hsource x).bind fun r hr => ?_
    split
    · exact .pure .none
    next x' => exact .pure (.some fun c hc => hV.paren pos x c (hr x' rfl c hc))
termination_by e => (sizeOf e, 0)
decreasing_by
  all_goals
    simp only [Prod.lex_def, Expr.unary.sizeOf_spec, Expr.binary.sizeOf_spec,
      Expr.call.sizeOf_spec, Expr.select.sizeOf_spec, Expr.init.sizeOf_spec, Expr.paren.sizeOf_spec]
    omega

theorem operand_valued (hV : Folding.Rules env V) (hsource : SourcesAgree I env V consts consts') :
    (e : Expr) → Agrees I (operand env consts e) (operand env consts' e) (OperandValued V e)
  | e => by
    unfold operand
    refine (expr_valued hV hsource e).bind fun r hr => ?_
    split
    · exact .pure fun _ h => by cases h
    next x =>
      refine .pure fun y heq => ?_
      cases heq
      exact hr x rfl
termination_by e => (sizeOf e, 1)
decreasing_by exact Prod.Lex.right _ Nat.zero_lt_one

theorem operands_keeps (hV : Folding.Rules env V) (hsource : SourcesAgree I env V consts consts') :
    (es : List Expr) → Agrees I (operands env consts es) (operands env consts' es) fun _ => True
  | [] => by
    unfold operands
    exact .pure trivial
  | e :: rest => by
    unfold operands
    refine (operand_valued hV hsource e).seq fun r => ?_
    dsimp only
    split
    all_goals
      refine Agrees.seq (Q := fun _ => True) (by first | exact hasValue_keeps | exact .pure trivial)
        fun ok => (operands_keeps hV hsource rest).seq fun r' => ?_
      split
      · split <;> exact .pure trivial
      · exact .pure trivial
termination_by es => (sizeOf es, 0)
decreasing_by all_goals (simp only [Prod.lex_def, List.cons.sizeOf_spec]; omega)

theorem elements_keeps (hV : Folding.Rules env V) (hsource : SourcesAgree I env V consts consts')
    {cls : String} {fields : List Field} (filling : Filling) : (es : List (Ident × Expr)) →
    Agrees I (elements env consts cls fields filling es) (elements env consts' cls fields filling es)
      fun _ => True
  | [] => by
    unfold elements
    exact .pure trivial
  | (key, value) :: rest => by
    unfold elements
    refine (operand_valued hV hsource value).seq fun x => fillField_keeps.seq fun filling' => ?_
    exact (elements_keeps hV hsource filling' rest).seq fun r => .pure trivial
termination_by es => (sizeOf es, 0)
decreasing_by
  all_goals (simp only [Prod.lex_def, List.cons.sizeOf_spec, Prod.mk.sizeOf_spec]; omega)

theorem elementValues_keeps (hV : Folding.Rules env V)
    (hsource : SourcesAgree I env V consts consts') : (es : List (Ident × Expr)) →
    Agrees I (elementValues env consts es) (elementValues env consts' es) fun _ => True
  | [] => by
    unfold elementValues
    exact .pure trivial
  | (_, value) :: rest => by
    unfold elementValues
    exact (expr_valued hV hsource value).discard.seq fun _ => elementValues_keeps hV hsource rest
termination_by es => (sizeOf es, 0)
decreasing_by
  all_goals (simp only [Prod.lex_def, List.cons.sizeOf_spec, Prod.mk.sizeOf_spec]; omega)

end

end Check

end ClassLang

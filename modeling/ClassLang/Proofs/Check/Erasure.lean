import ClassLang.Proofs.Check.Infer
import ClassLang.Proofs.Typing.Origin

/-!
A checked tree is the tree it was made from with more written on it: what the checker gives for an
expression erases to that expression, and what it gives for a statement stands for that statement.
This holds whatever the session is.
-/

namespace ClassLang

namespace Check

variable {α β : Type} {env : Env} {consts : ConstSource}

/-- If `m` gives something, it has the property `Q`. -/
def GivesSome (m : Check (Option α)) (Q : α → Prop) : Prop :=
  Gives m fun r => ∀ a, r = some a → Q a

namespace GivesSome

variable {Q R : α → Prop}

theorem nothing : GivesSome (pure none : Check (Option α)) Q := Gives.pure fun _ h => by cases h

theorem some {a : α} (h : Q a) : GivesSome (pure (some a)) Q := Gives.pure fun _ heq => by
  obtain rfl := Option.some.inj heq
  exact h

theorem fail {kind : ErrorKind} {pos : Pos} {message : String} :
    GivesSome (Check.fail kind pos message) Q := Gives.fail

theorem imp {m : Check (Option α)} (h : GivesSome m Q) (himp : ∀ a, Q a → R a) : GivesSome m R :=
  Gives.imp h fun _ hr a ha => himp a (hr a ha)

theorem bind {m : Check (Option α)} {f : Option α → Check (Option β)} {R : β → Prop}
    (hm : GivesSome m Q) (hf : ∀ r, (∀ a, r = Option.some a → Q a) → GivesSome (f r) R) :
    GivesSome (m >>= f) R := Gives.bind hm hf

/-- Where nothing is given, nothing is promised. -/
theorem after {m : Check β} {f : β → Check (Option α)} (hf : ∀ b, GivesSome (f b) Q) :
    GivesSome (m >>= f) Q := (Gives.trivial m).bind fun b _ => hf b

end GivesSome

/-! Expressions without parts -/

theorem inRange_gives {pos : Pos} {c : Constant} {e : Typed.Expr} :
    GivesSome (inRange pos c e) (· = e) := by
  unfold inRange
  split
  · exact .fail
  · exact .some rfl

theorem name_gives {id : Ident} : GivesSome (name env consts id) (·.erase = .name id) := by
  unfold name
  split
  next => exact .fail
  next v _ =>
    split
    · exact .nothing
    · exact .some rfl
  next => exact .some rfl
  next =>
    refine .after fun r => ?_
    split
    · exact .some rfl
    · exact .nothing
  next => exact .fail
  next => exact .fail
  next => exact .fail

theorem literal_gives {pos : Pos} {kind : LitKind} {text : String} :
    GivesSome (literal pos kind text) (·.erase = .literal pos kind text) := by
  unfold literal
  split
  next =>
    split
    · exact .fail
    · exact inRange_gives.imp fun x h => by rw [h]; rfl
  next =>
    split
    · exact .fail
    · exact .some rfl
  next => exact .some rfl

/-! Operators -/

theorem unaryOp_gives {pos : Pos} {op : UnaryOp} {x : Operand} :
    GivesSome (unaryOp pos op x) (·.erase = .unary pos op x.expr.erase) := by
  unfold unaryOp
  refine .after fun ok => ?_
  split
  · exact .nothing
  · cases op <;> dsimp only <;> split
    case not.isTrue | neg.isTrue => exact .fail
    case not.isFalse | neg.isFalse =>
      split
      · exact inRange_gives.imp fun x h => by rw [h]; rfl
      · exact .some rfl

theorem binaryOp_gives {op : BinaryOp} {x y : Operand} :
    GivesSome (binaryOp op x y) (·.erase = .binary op x.expr.erase y.expr.erase) := by
  unfold binaryOp
  refine .after fun ok => ?_
  split
  · exact .nothing
  refine .after fun ok => ?_
  split
  · exact .nothing
  dsimp only
  split
  · exact .fail
  split
  · exact .fail
  split
  · split
    · exact .fail
    · split
      · exact inRange_gives.imp fun x h => by rw [h]; rfl
      · exact .some rfl
  · exact .some rfl

/-! Members and calls -/

theorem selection_gives {x : Operand} {sel : Ident} :
    GivesSome (selection env x sel) (·.erase = .select x.expr.erase sel) := by
  unfold selection
  refine .after fun ok => ?_
  split
  · exact .nothing
  dsimp only
  split
  · exact .fail
  split
  · exact .fail
  split
  · exact .some rfl
  · split
    · exact .fail
    · exact .fail

theorem funcCall_gives {fn : Ident} {sym : Symbol} {sig : Signature}
    {args : Option (List Operand)} :
    GivesSome (funcCall env fn sym sig args) fun x => ∃ xs, args = some xs ∧
      x.erase = .call (.name fn) (Typed.Expr.eraseAll (xs.map (·.expr))) := by
  unfold funcCall
  split
  · exact .nothing
  next xs =>
    dsimp only
    split
    all_goals
      refine .after fun targs => ?_
      split
      · exact .nothing
      refine .after fun ok => ?_
      split
      · exact .some ⟨xs, rfl, rfl⟩
      · exact .nothing

theorem methodCall_gives {x : Operand} {sel : Ident} {found : CallKind × Method × Signature}
    {args : Option (List Operand)} :
    GivesSome (methodCall env x sel found args) fun e => ∃ xs, args = some xs ∧
      e.erase = .call (.select x.expr.erase sel) (Typed.Expr.eraseAll (xs.map (·.expr))) := by
  unfold methodCall
  dsimp only
  split
  · exact .nothing
  next xs =>
    refine .after fun ok => ?_
    split
    · exact .some ⟨xs, rfl, rfl⟩
    · exact .nothing

/-! Initializers -/

theorem fillField_gives {cls : String} {fields : List Field} {filling : Filling} {key : Ident}
    {value : Option Operand} :
    Gives (fillField cls fields filling key value) fun r => r.ok = true →
      filling.ok = true ∧ value.isSome = true := by
  unfold fillField
  dsimp only
  split
  · exact .report_bind (.pure (by simp))
  split
  · exact .report_bind (.pure (by simp))
  split
  · exact .pure (by simp)
  · exact (Gives.trivial _).bind fun ok _ => .pure fun h => ⟨by simp at h; exact h.1, rfl⟩

theorem initialized_gives {cls : Ident} {sym : Symbol} {c : ClassInfo} {filling : Filling}
    {elems : List (Ident × Typed.Expr)} :
    GivesSome (initialized env cls sym c filling elems) fun x => filling.ok = true ∧
      x.erase = .init cls (Typed.Expr.eraseElems elems) := by
  unfold initialized
  dsimp only
  split
  · exact .after fun _ => .nothing
  split
  · exact .nothing
  next hok =>
    split
    all_goals
      refine .after fun targs => ?_
      split
      · exact .nothing
      refine .after fun fits => ?_
      split
      · exact .some ⟨by simpa using hok, rfl⟩
      · exact .nothing

/-! All expressions -/

mutual

/-- What the checker gives for an expression erases to that expression. -/
theorem expr_gives : (e : Expr) → GivesSome (expr env consts e) (·.erase = e)
  | .name id => by
    unfold expr
    exact name_gives
  | .literal pos kind text => by
    unfold expr
    exact literal_gives
  | .unary pos op x => by
    unfold expr
    refine (operand_gives x).bind fun r hr => ?_
    split
    · exact .nothing
    next x' => exact unaryOp_gives.imp fun y h => by rw [h, hr x' rfl]
  | .binary op x y => by
    unfold expr
    refine (operand_gives x).bind fun r hr => (operand_gives y).bind fun r' hr' => ?_
    split
    next x' y' =>
      exact binaryOp_gives.imp fun z h => by rw [h, hr x' rfl, hr' y' rfl]
    · exact .after fun _ => .nothing
    · exact .nothing
  | .call (.name fn) args => by
    unfold expr
    split
    next id host _ =>
      refine (operands_gives args).bind fun r hr => ?_
      split
      next =>
        refine funcCall_gives.imp fun y h => ?_
        obtain ⟨xs, heq, herase⟩ := h
        rw [herase, hr xs heq]
      next => exact .nothing
    next =>
      dsimp only
      split
      all_goals exact .after fun _ => .after fun _ => .nothing
  | .call (.select x sel) args => by
    unfold expr
    refine (operand_gives x).bind fun r hr => ?_
    split
    next => exact .after fun _ => .nothing
    next x' =>
      refine .after fun ok => ?_
      split
      next => exact .after fun _ => .nothing
      next =>
        refine .after fun found => ?_
        split
        next => exact .after fun _ => .nothing
        next found =>
          refine (operands_gives args).bind fun r' hr' => ?_
          refine methodCall_gives.imp fun y h => ?_
          obtain ⟨xs, heq, herase⟩ := h
          rw [herase, hr x' rfl, hr' xs heq]
  | .call (.literal ..) args | .call (.unary ..) args | .call (.binary ..) args
  | .call (.call ..) args | .call (.init ..) args | .call (.paren ..) args => by
    unfold expr
    exact .after fun _ => .after fun _ => .nothing
  | .select x sel => by
    unfold expr
    refine (operand_gives x).bind fun r hr => ?_
    split
    · exact .nothing
    next x' => exact selection_gives.imp fun y h => by rw [h, hr x' rfl]
  | .init cls elems => by
    unfold expr
    split
    next id _ =>
      split
      next c _ =>
        refine Gives.bind (elements_gives {} elems) fun r hr => ?_
        refine initialized_gives.imp fun y h => ?_
        obtain ⟨hok, herase⟩ := h
        rw [herase, (hr hok).2]
      next => exact .nothing
    all_goals exact .after fun _ => .after fun _ => .nothing
  | .paren pos x => by
    unfold expr
    refine (expr_gives x).bind fun r hr => ?_
    split
    · exact .nothing
    next x' => exact .some (by rw [Typed.Expr.erase, hr x' rfl])
termination_by e => (sizeOf e, 0)
decreasing_by
  all_goals
    simp only [Prod.lex_def, Expr.unary.sizeOf_spec, Expr.binary.sizeOf_spec,
      Expr.call.sizeOf_spec, Expr.select.sizeOf_spec, Expr.init.sizeOf_spec, Expr.paren.sizeOf_spec]
    omega

theorem operand_gives : (e : Expr) → GivesSome (operand env consts e) (·.expr.erase = e)
  | e => by
    unfold operand
    refine (expr_gives e).bind fun r hr => ?_
    split
    · exact .nothing
    next x => exact .some (hr x rfl)
termination_by e => (sizeOf e, 1)
decreasing_by exact Prod.Lex.right _ Nat.zero_lt_one

theorem operands_gives : (es : List Expr) → GivesSome (operands env consts es) fun xs =>
    Typed.Expr.eraseAll (xs.map (·.expr)) = es
  | [] => by
    unfold operands
    exact .some rfl
  | e :: rest => by
    unfold operands
    refine (operand_gives e).bind fun r hr => ?_
    dsimp only
    split
    all_goals
      refine .after fun ok => (operands_gives rest).bind fun r' hr' => ?_
      split
      next _ _ x xs heq =>
        split
        · refine .some ?_
          rw [List.map_cons, Typed.Expr.eraseAll, hr x heq, hr' xs rfl]
        · exact .nothing
      next => exact .nothing
termination_by es => (sizeOf es, 0)
decreasing_by all_goals (simp only [Prod.lex_def, List.cons.sizeOf_spec]; omega)

theorem elements_gives {cls : String} {fields : List Field} (filling : Filling) :
    (es : List (Ident × Expr)) → Gives (elements env consts cls fields filling es) fun r =>
      r.1.ok = true → filling.ok = true ∧ Typed.Expr.eraseElems r.2 = es
  | [] => by
    unfold elements
    exact .pure fun h => ⟨h, rfl⟩
  | (key, value) :: rest => by
    unfold elements
    refine Gives.bind (operand_gives value) fun x hx => ?_
    refine fillField_gives.bind fun filling' hfill => ?_
    refine (elements_gives filling' rest).bind fun r hr => .pure fun hok => ?_
    obtain ⟨hok', hrest⟩ := hr hok
    obtain ⟨hfilling, hsome⟩ := hfill hok'
    obtain ⟨x, rfl⟩ := Option.isSome_iff_exists.1 hsome
    refine ⟨hfilling, ?_⟩
    simp only [Option.toList_some, List.map_cons, List.map_nil, List.singleton_append,
      Typed.Expr.eraseElems]
    rw [hx x rfl, hrest]
termination_by es => (sizeOf es, 0)
decreasing_by
  all_goals (simp only [Prod.lex_def, List.cons.sizeOf_spec, Prod.mk.sizeOf_spec]; omega)

end

/-! Statements -/

variable {p : Place} {s : Scope Symbol}

theorem Place.operand_gives {e : Expr} : GivesSome (p.operand s e) (·.expr.erase = e) :=
  Check.operand_gives e

theorem condition_gives {e : Expr} {word : String} :
    GivesSome (condition p s e word) (·.erase = e) := by
  unfold condition
  refine Place.operand_gives.bind fun r hr => ?_
  split
  · exact .nothing
  next x =>
    refine .after fun ok => ?_
    split
    · exact .nothing
    split
    · exact .some (hr x rfl)
    · exact .fail

theorem loopBound_gives {e : Expr} : GivesSome (loopBound p s e) (·.erase = e) := by
  unfold loopBound
  refine Place.operand_gives.bind fun r hr => ?_
  split
  · exact .nothing
  next x =>
    refine .after fun ok => ?_
    split
    · exact .nothing
    split
    · exact .some (hr x rfl)
    · exact .fail

theorem exprStmt_gives {e : Expr} : GivesSome (exprStmt p s e) (·.StandsFor (.expr e)) := by
  unfold exprStmt
  refine Place.operand_gives.bind fun r hr => ?_
  split
  · exact .nothing
  next x =>
    split
    · exact .some (hr x rfl ▸ .expr)
    · exact .fail

theorem assignStmt_gives {lhs rhs : Expr} :
    GivesSome (assignStmt p s lhs rhs) (·.StandsFor (.assign lhs rhs)) := by
  unfold assignStmt
  refine Place.operand_gives.bind fun r hr => Place.operand_gives.bind fun r' hr' => ?_
  split
  · exact .nothing
  next x =>
    split
    · exact .fail
    split
    · exact .nothing
    next y =>
      refine .after fun ok => ?_
      split
      · exact .some (hr x rfl ▸ hr' y rfl ▸ .assign)
      · exact .nothing

theorem returnStmt_gives {pos : Pos} {value : Option Expr} :
    GivesSome (returnStmt p s pos value) (·.StandsFor (.ret pos value)) := by
  cases value with
  | none =>
      rw [returnStmt]
      split
      · exact .some .ret
      · exact .fail
  | some e =>
      rw [returnStmt]
      refine Place.operand_gives.bind fun r hr => ?_
      split
      · exact .nothing
      next x =>
        split
        · exact .fail
        refine .after fun ok => ?_
        split
        · exact .some (hr x rfl ▸ .retValue)
        · exact .nothing

theorem bindStmt_gives {pos : Pos} {name : Ident} {type : TypeExpr} {value : Expr} :
    Gives (bindStmt p s pos name type value) fun r => ∀ t, r.2 = some t →
      t.StandsFor (.bind pos name type value) := by
  unfold bindStmt
  refine (Gives.trivial _).bind fun term _ => Gives.bind Place.operand_gives fun r hr => ?_
  dsimp only
  split
  next term x =>
    refine (Gives.trivial _).bind fun ok _ => ?_
    split
    · refine Gives.bind (GivesSome.some (Q := (·.StandsFor (.bind pos name type value))) ?_)
        fun stmt hstmt => ?_
      · exact hr x rfl ▸ .bind
      · exact (Gives.trivial _).bind fun _ _ => .pure hstmt
    · refine Gives.bind (GivesSome.nothing (Q := fun _ => False)) fun stmt hstmt => ?_
      exact (Gives.trivial _).bind fun _ _ => .pure fun t ht => (hstmt t ht).elim
  next =>
    refine Gives.bind (GivesSome.nothing (Q := fun _ => False)) fun stmt hstmt => ?_
    exact (Gives.trivial _).bind fun _ _ => .pure fun t ht => (hstmt t ht).elim

mutual

/-- What the checker gives for a statement stands for that statement. -/
theorem stmt_gives (p : Place) (s : Scope Symbol) : (x : Stmt) →
    Gives (stmt p s x) fun r => ∀ t, r.2 = some t → t.StandsFor x
  | .empty pos => by
    unfold stmt
    refine .pure fun t ht => ?_
    obtain rfl := Option.some.inj ht
    exact .empty
  | .expr x => by
    unfold stmt
    exact Gives.bind exprStmt_gives fun r hr => .pure hr
  | .bind pos name type value => by
    unfold stmt
    exact bindStmt_gives
  | .assign lhs rhs => by
    unfold stmt
    exact Gives.bind assignStmt_gives fun r hr => .pure hr
  | .block body => by
    unfold stmt
    refine (block_gives p s body).bind fun r hr => .pure fun t ht => ?_
    obtain ⟨b, hb, rfl⟩ := Option.map_eq_some_iff.1 ht
    exact .block (hr b hb)
  | .ifElse pos cond body other => by
    unfold stmt
    refine Gives.bind condition_gives fun c hc => ?_
    refine (block_gives p s body).bind fun (s₁, b) hb => ?_
    refine (alternative_gives p s₁ other).bind fun (s₂, o) ho => ?_
    dsimp only
    split
    next c b o =>
      refine .pure fun t ht => ?_
      obtain rfl := Option.some.inj ht
      obtain rfl : c.erase = cond := hc c rfl
      cases ho o rfl with
      | none => exact .ifThen (hb b rfl)
      | some other => exact .ifElse (hb b rfl) other
    next => exact .pure fun t ht => by cases ht
  | .whileLoop pos cond body => by
    unfold stmt
    refine Gives.bind condition_gives fun c hc => ?_
    refine (block_gives p s body).bind fun (s₁, b) hb => ?_
    dsimp only
    split
    next c b =>
      refine .pure fun t ht => ?_
      obtain rfl := Option.some.inj ht
      obtain rfl : c.erase = cond := hc c rfl
      exact .whileLoop (hb b rfl)
    next => exact .pure fun t ht => by cases ht
  | .forLoop pos var range body => by
    unfold stmt
    refine Gives.bind loopBound_gives fun low hlow => Gives.bind loopBound_gives fun high hhigh => ?_
    refine (Gives.trivial _).bind fun loop _ => ?_
    refine (block_gives (p.enter s) loop body).bind fun (s₁, b) hb => ?_
    dsimp only
    split
    next low high b =>
      refine .pure fun t ht => ?_
      obtain rfl := Option.some.inj ht
      have hrange : range = ⟨range.pos, low.erase, high.erase⟩ := by
        rw [hlow low rfl, hhigh high rfl]
      rw [hrange]
      exact .forLoop (hb b rfl)
    next => exact .pure fun t ht => by cases ht
  | .ret pos value => by
    unfold stmt
    exact Gives.bind returnStmt_gives fun r hr => .pure hr

theorem alternative_gives (p : Place) (s : Scope Symbol) : (other : Option Stmt) →
    Gives (alternative p s other) fun r => ∀ o, r.2 = some o →
      Option.Rel Typed.Stmt.StandsFor o other
  | none => by
    unfold alternative
    refine .pure fun o ho => ?_
    obtain rfl := Option.some.inj ho
    exact .none
  | some other => by
    unfold alternative
    refine (stmt_gives p s other).bind fun r hr => .pure fun o ho => ?_
    obtain ⟨t, ht, rfl⟩ := Option.map_eq_some_iff.1 ho
    exact .some (hr t ht)

theorem block_gives (p : Place) (s : Scope Symbol) : (body : Block) →
    Gives (block p s body) fun r => ∀ b, r.2 = some b → b.StandsFor body
  | .mk pos list close => by
    unfold block
    refine (stmts_gives (p.enter s) { label := "block" } list).bind fun r hr => .pure fun b hb => ?_
    obtain ⟨ts, hts, rfl⟩ := Option.map_eq_some_iff.1 hb
    exact .mk (hr ts hts)

theorem stmts_gives (p : Place) (s : Scope Symbol) : (list : List Stmt) →
    Gives (stmts p s list) fun r => ∀ ts, r.2 = some ts → Typed.StandFor ts list
  | [] => by
    unfold stmts
    refine .pure fun ts hts => ?_
    obtain rfl := Option.some.inj hts
    exact .nil
  | x :: rest => by
    unfold stmts
    refine (Gives.trivial _).bind fun full _ => ?_
    split
    · exact .pure fun ts hts => by cases hts
    refine (stmt_gives p s x).bind fun (s₁, t) ht => ?_
    refine (stmts_gives p s₁ rest).bind fun (s₂, ts) hts => ?_
    dsimp only
    split
    next t ts =>
      refine .pure fun ts' heq => ?_
      obtain rfl := Option.some.inj heq
      exact .cons (ht t rfl) (hts ts rfl)
    next => exact .pure fun ts' heq => by cases heq

end

/-! Bodies and constants -/

theorem constDecl_gives {d : ConstDecl} :
    GivesSome (constDecl env consts d) fun k => k.decl = d ∧ k.expr.erase = d.value := by
  unfold constDecl
  refine .after fun term => ?_
  dsimp only
  split
  · exact .fail
  refine (operand_gives d.value).bind fun r hr => ?_
  split
  next x _ _ =>
    split
    · exact .fail
    · refine .after fun ok => ?_
      split
      · exact .some ⟨rfl, hr x rfl⟩
      · exact .nothing
  next => exact .nothing

end Check

end ClassLang

import ClassLang.Proofs.Formed.Expr

/-!
Checking a statement gives it and its parts well-formed types. A statement may declare
variables, whose types were written in the source and checked there.
-/

namespace ClassLang

namespace Check

open ClassLang.Typed (FactsFormed)

variable {w : Watch} {T : Table} {C : Prop} {env : Env} {consts : ConstSource}
  {s : Scope Symbol} {p : Place}

/-! Scopes -/

namespace InUnit

/-- Variables with well-formed types can be added to the names of an environment. -/
theorem extend {env' : Env} (h : InUnit env T w) (htable : env'.table = env.table)
    (hfuncs : env'.funcs = env.funcs) (hcollect : env'.collecting = env.collecting)
    (hlookup : ∀ name sym, env'.lookup name = some sym →
      env.lookup name = some sym ∨ ∃ v, sym = .var v ∧ v.ty.Formed T) : InUnit env' T w where
  formed :=
    { heads := by rw [htable, h.formed.heads]
      duties := by
        rw [hcollect]
        exact h.formed.duties
      checked := by
        rw [hcollect, htable]
        exact h.formed.checked
      basic := fun name t ht => by
        obtain hl | ⟨v, heq, _⟩ := hlookup name _ ht
        · exact h.formed.basic name t hl
        · cases heq
      vars := fun name v hv => by
        obtain hl | ⟨v', heq, hv'⟩ := hlookup name _ hv
        · exact h.formed.vars name v hl
        · cases heq
          exact hv' }
  table := htable.trans h.table
  typed := h.typed
  members := h.members
  funcs name sig hsig := h.funcs name sig (by rw [← hfuncs, hsig])

theorem inside (h : InUnit (env.enter s) T w) (label : String) :
    InUnit ((env.enter s).enter { label }) T w :=
  h.extend rfl rfl rfl fun name sym hl => .inl (by simpa [lookup_enter, Scope.find?] using hl)

theorem nest {inner : Scope Symbol} (h : InUnit (env.enter s) T w) :
    InUnit (env.enter (s.nest inner)) T w :=
  h.extend rfl rfl rfl fun name sym hl => .inl (by rwa [lookup_enter] at hl ⊢)

theorem declare {v : Var} (h : InUnit (env.enter s) T w) (hv : v.ty.Formed T) {name : String} :
    InUnit (env.enter (s.push name (.var v))) T w :=
  h.extend rfl rfl rfl fun name' sym hl => by
    rw [lookup_enter, find?_push] at hl
    rw [lookup_enter]
    cases hfind : s.find? name' with
    | some found => exact .inl (by simpa [hfind] using hl)
    | none =>
        by_cases heq : name' = name
        · rw [hfind, if_pos heq] at hl
          exact .inr ⟨v, by simpa using hl.symm, hv⟩
        · exact .inl (by simpa [hfind, heq] using hl)

end InUnit

/-! Statements without parts -/

/-- A checked statement all of whose facts are about well-formed types. -/
def StmtFormed (T : Table) (r : Option Typed.Stmt) : Prop := ∀ t ∈ r, FactsFormed T t.facts

theorem stmtFormed_none : StmtFormed T none := by simp [StmtFormed]

theorem stmtFormed_some {t : Typed.Stmt} : StmtFormed T (some t) ↔ FactsFormed T t.facts := by
  simp [StmtFormed]

theorem Place.operand_formed (hconsts : ConstsFormed w T p.consts C) {e : Expr} :
    w.Ensures (p.operand s e) (InUnit (p.env.enter s) T w ∧ C) (OperandFormed T) :=
  Check.operand_formed hconsts e

theorem exprStmt_formed (hconsts : ConstsFormed w T p.consts C) {e : Expr} :
    w.Ensures (exprStmt p s e) (InUnit (p.env.enter s) T w ∧ C) (StmtFormed T) := by
  unfold exprStmt
  refine (Place.operand_formed hconsts).bind fun r => ?_
  split
  next => exact .pure fun _ => stmtFormed_none
  next x =>
    split
    next => exact .pure fun h => stmtFormed_some.2 (by simpa [Typed.Stmt.facts] using h.2 x rfl)
    next => exact .fail

theorem assignStmt_formed (hconsts : ConstsFormed w T p.consts C) {lhs rhs : Expr} :
    w.Ensures (assignStmt p s lhs rhs) (InUnit (p.env.enter s) T w ∧ C) (StmtFormed T) := by
  unfold assignStmt
  refine (Place.operand_formed hconsts).bind fun x => ?_
  refine ((Place.operand_formed hconsts).imp And.left fun _ _ h => h).bind fun y => ?_
  split
  next => exact .pure fun _ => stmtFormed_none
  next x =>
    split
    next => exact .fail
    next =>
      split
      next => exact .pure fun _ => stmtFormed_none
      next y =>
        refine assignable_ensures.bind fun ok => ?_
        split
        next =>
          refine .pure fun h => stmtFormed_some.2 ?_
          simpa [Typed.Stmt.facts] using ⟨h.1.1.2 x rfl, h.1.2 y rfl⟩
        next => exact .pure fun _ => stmtFormed_none

theorem condition_formed (hconsts : ConstsFormed w T p.consts C) {e : Expr} {word : String} :
    w.Ensures (condition p s e word) (InUnit (p.env.enter s) T w ∧ C) (ExprFormed T) := by
  unfold condition
  refine (Place.operand_formed hconsts).bind fun r => ?_
  split
  next => exact .pure fun _ => exprFormed_none
  next x =>
    refine hasValue_ensures.bind fun ok => ?_
    split
    next => exact .pure fun _ => exprFormed_none
    next =>
      split
      next => exact .pure fun h => exprFormed_some.2 (h.1.2 x rfl)
      next => exact .fail

theorem loopBound_formed (hconsts : ConstsFormed w T p.consts C) {e : Expr} :
    w.Ensures (loopBound p s e) (InUnit (p.env.enter s) T w ∧ C) (ExprFormed T) := by
  unfold loopBound
  refine (Place.operand_formed hconsts).bind fun r => ?_
  split
  next => exact .pure fun _ => exprFormed_none
  next x =>
    refine hasValue_ensures.bind fun ok => ?_
    split
    next => exact .pure fun _ => exprFormed_none
    next =>
      split
      next => exact .pure fun h => exprFormed_some.2 (h.1.2 x rfl)
      next => exact .fail

theorem returnStmt_formed (hconsts : ConstsFormed w T p.consts C) {pos : Pos}
    {value : Option Expr} :
    w.Ensures (returnStmt p s pos value) (InUnit (p.env.enter s) T w ∧ C) (StmtFormed T) := by
  cases value with
  | none =>
      rw [returnStmt]
      split
      next => exact .pure fun _ => stmtFormed_some.2 (by simp [Typed.Stmt.facts])
      next => exact .fail
  | some e =>
      rw [returnStmt]
      refine (Place.operand_formed hconsts).bind fun r => ?_
      split
      next => exact .pure fun _ => stmtFormed_none
      next x =>
        split
        next => exact .fail
        next =>
          refine assignable_ensures.bind fun ok => ?_
          split
          next =>
            refine .pure fun h => stmtFormed_some.2 ?_
            simpa [Typed.Stmt.facts] using h.1.2 x rfl
          next => exact .pure fun _ => stmtFormed_none

/-- What holds behind a statement that may have declared variables. -/
def Behind (p : Place) (T : Table) (w : Watch) (r : Scope Symbol × Option Typed.Stmt) : Prop :=
  InUnit (p.env.enter r.1) T w ∧ StmtFormed T r.2

theorem bindStmt_formed (hconsts : ConstsFormed w T p.consts C) {pos : Pos} {name : Ident}
    {type : TypeExpr} {value : Expr} :
    w.Ensures (bindStmt p s pos name type value) (InUnit (p.env.enter s) T w ∧ C)
      (Behind p T w) := by
  unfold bindStmt
  refine ((varType_formed (T := T)).imp (fun h => h.1.formed) fun _ _ h => h).bind fun term => ?_
  refine ((Place.operand_formed hconsts).imp And.left fun _ _ h => h).bind fun x => ?_
  have declared {P : Prop} {stmt : Option Typed.Stmt}
      (h : P → InUnit (p.env.enter s) T w ∧ (tyOf term).Formed T ∧ StmtFormed T stmt) :
      w.Ensures (do
        return (← declare s name (.var ⟨name.text, name.pos, .localVar, tyOf term⟩), stmt)) P
        (Behind p T w) := by
    refine declare_ensures.bind fun s' => .pure ?_
    rintro ⟨hp, rfl, _⟩
    obtain ⟨henv, hty, hstmt⟩ := h hp
    exact ⟨henv.declare hty, hstmt⟩
  dsimp only
  split
  next term x =>
    refine assignable_ensures.bind fun ok => ?_
    split
    next =>
      refine declared fun h => ⟨h.1.1.1.1, tyOf_formed h.1.1.2, stmtFormed_some.2 ?_⟩
      simpa [Typed.Stmt.facts] using ⟨h.1.1.2 term rfl, h.1.2 x rfl⟩
    next => exact declared fun h => ⟨h.1.1.1.1, tyOf_formed h.1.1.2, stmtFormed_none⟩
  next => exact declared fun h => ⟨h.1.1.1, tyOf_formed h.1.2, stmtFormed_none⟩

/-! All statements -/

mutual

theorem stmt_formed {env : Env} {s : Scope Symbol} {result : Ty}
    (hconsts : ConstsFormed w T consts C) : (x : Stmt) →
    w.Ensures (stmt ⟨env, consts, result⟩ s x) (InUnit (env.enter s) T w ∧ C)
      (Behind ⟨env, consts, result⟩ T w)
  | .empty pos => by
    unfold stmt
    exact .pure fun h => ⟨h.1, stmtFormed_some.2 (by simp [Typed.Stmt.facts])⟩
  | .expr x => by
    unfold stmt
    exact (exprStmt_formed hconsts).bind fun r => .pure fun h => ⟨h.1.1, h.2⟩
  | .bind pos name type value => by
    unfold stmt
    exact bindStmt_formed hconsts
  | .assign lhs rhs => by
    unfold stmt
    exact (assignStmt_formed hconsts).bind fun r => .pure fun h => ⟨h.1.1, h.2⟩
  | .block body => by
    unfold stmt
    refine (block_formed hconsts body).bind fun r => .pure fun h => ⟨h.2.1, fun t ht => ?_⟩
    obtain ⟨b, hb, rfl⟩ := Option.map_eq_some_iff.1 ht
    simpa [Typed.Stmt.facts] using h.2.2 b hb
  | .ifElse pos cond body other => by
    unfold stmt
    refine (condition_formed hconsts).bind fun c => ?_
    refine ((block_formed hconsts body).imp And.left fun _ _ h => h).bind fun (s₁, b) => ?_
    refine ((alternative_formed hconsts other).imp (fun h => ⟨h.2.1, h.1.1.2⟩)
      fun _ _ h => h).bind fun (s₂, o) => ?_
    dsimp only
    split
    next cond body other =>
      refine .pure fun h => ?_
      obtain ⟨⟨⟨_, hcond⟩, _, hbody⟩, henv, hother⟩ := h
      refine ⟨henv, stmtFormed_some.2 ?_⟩
      have hother := hother other rfl
      have hparts := And.intro (hcond cond rfl) (hbody body rfl)
      cases other with
      | none => simpa [Typed.Stmt.facts] using hparts
      | some t => simpa [Typed.Stmt.facts] using ⟨hparts.1, hparts.2, hother t rfl⟩
    next => exact .pure fun h => ⟨h.2.1, stmtFormed_none⟩
  | .whileLoop pos cond body => by
    unfold stmt
    refine (condition_formed hconsts).bind fun c => ?_
    refine ((block_formed hconsts body).imp And.left fun _ _ h => h).bind fun (s₁, b) => ?_
    dsimp only
    split
    next cond body =>
      refine .pure fun h => ⟨h.2.1, stmtFormed_some.2 ?_⟩
      simpa [Typed.Stmt.facts] using ⟨h.1.2 cond rfl, h.2.2 body rfl⟩
    next => exact .pure fun h => ⟨h.2.1, stmtFormed_none⟩
  | .forLoop pos var range body => by
    unfold stmt
    refine (loopBound_formed hconsts).bind fun low => ?_
    refine ((loopBound_formed hconsts).imp And.left fun _ _ h => h).bind fun high => ?_
    dsimp only
    refine declare_ensures.bind fun loop => ?_
    refine ((block_formed hconsts body).imp (fun h => ?_) fun _ _ h => h).bind fun (s₁, b) => ?_
    · obtain ⟨⟨⟨⟨henv, hC⟩, _⟩, _⟩, rfl, _⟩ := h
      refine ⟨(henv.inside "for").declare (v := ⟨var.text, var.pos, .localVar, .int⟩) ?_, hC⟩
      simp [Ty.Formed]
    dsimp only
    split
    next low high body =>
      refine .pure fun h => ?_
      obtain ⟨⟨⟨⟨⟨henv, _⟩, hlow⟩, hhigh⟩, _⟩, _, hbody⟩ := h
      refine ⟨henv.nest, stmtFormed_some.2 ?_⟩
      simpa [Typed.Stmt.facts, Ty.Formed] using ⟨hlow low rfl, hhigh high rfl, hbody body rfl⟩
    next => exact .pure fun h => ⟨h.1.1.1.1.1.nest, stmtFormed_none⟩
  | .ret pos value => by
    unfold stmt
    exact (returnStmt_formed hconsts).bind fun r => .pure fun h => ⟨h.1.1, h.2⟩

theorem alternative_formed {env : Env} {s : Scope Symbol} {result : Ty}
    (hconsts : ConstsFormed w T consts C) : (other : Option Stmt) →
    w.Ensures (alternative ⟨env, consts, result⟩ s other) (InUnit (env.enter s) T w ∧ C)
      fun r => InUnit (env.enter r.1) T w ∧ ∀ o ∈ r.2, StmtFormed T o
  | none => by
    unfold alternative
    refine .pure fun h => ⟨h.1, fun o ho => ?_⟩
    obtain rfl := Option.mem_some.1 ho
    exact stmtFormed_none
  | some other => by
    unfold alternative
    refine (stmt_formed hconsts other).bind fun r => .pure fun h => ⟨h.2.1, fun o ho => ?_⟩
    obtain ⟨t, ht, rfl⟩ := Option.map_eq_some_iff.1 ho
    exact stmtFormed_some.2 (h.2.2 t ht)

theorem block_formed {env : Env} {s : Scope Symbol} {result : Ty}
    (hconsts : ConstsFormed w T consts C) : (body : Block) →
    w.Ensures (block ⟨env, consts, result⟩ s body) (InUnit (env.enter s) T w ∧ C)
      fun r => InUnit (env.enter r.1) T w ∧ ∀ b ∈ r.2, FactsFormed T b.facts
  | .mk pos list close => by
    unfold block
    refine ((stmts_formed hconsts list).imp (fun h => ⟨h.1.inside "block", h.2⟩)
      fun _ _ h => h).bind fun r => .pure fun h => ⟨h.1.1.nest, fun b hb => ?_⟩
    obtain ⟨ts, hts, rfl⟩ := Option.map_eq_some_iff.1 hb
    simpa [Typed.Block.facts] using h.2.2 ts hts

theorem stmts_formed {env : Env} {s : Scope Symbol} {result : Ty}
    (hconsts : ConstsFormed w T consts C) : (list : List Stmt) →
    w.Ensures (stmts ⟨env, consts, result⟩ s list) (InUnit (env.enter s) T w ∧ C)
      fun r => InUnit (env.enter r.1) T w ∧ ∀ ts ∈ r.2, FactsFormed T (Typed.Stmt.factsOf ts)
  | [] => by
    unfold stmts
    refine .pure fun h => ⟨h.1, fun ts hts => ?_⟩
    obtain rfl := Option.mem_some.1 hts
    simp [Typed.Stmt.factsOf]
  | x :: rest => by
    unfold stmts
    refine Watch.Ensures.full.bind fun full => ?_
    split
    next => exact .pure fun h => ⟨h.1.1, fun ts hts => by cases hts⟩
    next =>
      refine ((stmt_formed hconsts x).imp And.left fun _ _ h => h).bind fun (s₁, r) => ?_
      refine ((stmts_formed hconsts rest).imp (fun h => ⟨h.2.1, h.1.1.2⟩) fun _ _ h => h).bind
        fun (s₂, rs) => ?_
      dsimp only
      split
      next t ts =>
        refine .pure fun h => ⟨h.2.1, fun us hus => ?_⟩
        obtain rfl := Option.mem_some.1 hus
        simpa [Typed.Stmt.factsOf] using ⟨h.1.2.2 t rfl, h.2.2 ts rfl⟩
      next => exact .pure fun h => ⟨h.2.1, fun ts hts => by cases hts⟩

end

end Check

end ClassLang

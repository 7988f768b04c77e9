import ClassLang.Proofs.Check.Expr
import ClassLang.Proofs.Tree.Shape

/-!
What the checker promises about statements: those that pass are well typed. The
variables that a statement sees are those of the scopes around it.
-/

namespace ClassLang

namespace Check

variable {P C : Prop} {env : Env} {consts : ConstSource} {Δ : List TypeParam} {vars : List Var}
  {funcs : List (String × Bool × Signature)} {s : Scope Symbol}

/-! Scopes -/

theorem find?_push {name name' : String} {sym : Symbol} :
    (s.push name sym).find? name' =
      (s.find? name').or (if name' = name then some sym else none) := by
  simp only [Scope.find?, Scope.push, List.lookup_append, List.lookup_cons, List.lookup_nil]
  by_cases h : name' = name
  · simp [h]
  · rw [if_neg h, beq_eq_false_iff_ne.2 h]

namespace EnvOk

/-- What holds of an environment holds of one with the same names. -/
theorem congr {env' : Env} (h : EnvOk env funcs Δ vars) (htable : env'.table = env.table)
    (hfuncs : env'.funcs = env.funcs) (hcollect : env'.collecting = env.collecting)
    (hlookup : ∀ name, env'.lookup name = env.lookup name) : EnvOk env' funcs Δ vars where
  sound := by
    have hsound := h.sound
    rwa [Env.context, ← htable] at hsound
  collected := by rw [hcollect, h.collected]
  types name p pos hp := h.types name p pos (by rw [← hlookup, hp])
  basic name t ht := h.basic name t (by rw [← hlookup, ht])
  func name id host sig hid hsig :=
    h.func name id host sig (by rw [← hlookup, hid]) (by rw [← hfuncs, hsig])
  cls name id hid := h.cls name id (by rw [← hlookup, hid])
  var name v hv := by
    rw [htable]
    exact h.var name v (by rw [← hlookup, hv])

theorem enter_empty (h : EnvOk env funcs Δ vars) (label : String) :
    EnvOk (env.enter { label }) funcs Δ vars :=
  h.congr rfl rfl rfl fun name => by simp [lookup_enter, Scope.find?]

theorem nest {inner : Scope Symbol} (h : EnvOk (env.enter s) funcs Δ vars) :
    EnvOk (env.enter (s.nest inner)) funcs Δ vars :=
  h.congr rfl rfl rfl fun name => by
    rw [lookup_enter, lookup_enter]
    rfl

/-- Declaring a variable makes it visible, in front of all others. -/
theorem declare {v : Var} (h : EnvOk (env.enter s) funcs Δ vars) (hnew : v.name ∉ s.names)
    (hknown : v.ty.Scoped env.table.arity Δ) (hvalue : v.ty.isVoid = false) :
    EnvOk (env.enter (s.push v.name (.var v))) funcs Δ (v :: vars) := by
  have hother {name : String} (hne : name ≠ v.name) :
      (env.enter (s.push v.name (.var v))).lookup name = (env.enter s).lookup name := by
    rw [lookup_enter, lookup_enter, find?_push, if_neg hne, Option.or_none]
  have hself : (env.enter (s.push v.name (.var v))).lookup v.name = some (.var v) := by
    rw [lookup_enter, find?_push, find?_eq_none_iff.2 hnew]
    simp
  have hback {name : String} {sym : Symbol} (hne : ∀ w, sym ≠ .var w)
      (hl : (env.enter (s.push v.name (.var v))).lookup name = some sym) :
      (env.enter s).lookup name = some sym := by
    by_cases heq : name = v.name
    · rw [heq, hself] at hl
      exact absurd (Option.some.inj hl).symm (hne v)
    · rw [← hother heq, hl]
  refine ⟨h.sound, h.collected, ?_, ?_, ?_, ?_, ?_⟩
  · exact fun name p pos hp => h.types name p pos (hback (by simp) hp)
  · exact fun name t ht => h.basic name t (hback (by simp) ht)
  · exact fun name id host sig hid hsig => h.func name id host sig (hback (by simp) hid) hsig
  · exact fun name id hid => h.cls name id (hback (by simp) hid)
  · intro name w hw
    by_cases heq : name = v.name
    · subst heq
      rw [hself] at hw
      cases hw
      exact ⟨by simp, hknown, hvalue⟩
    · rw [hother heq] at hw
      obtain ⟨hfind, hrest⟩ := h.var name w hw
      exact ⟨by simpa [List.find?_cons, Ne.symm heq] using hfind, hrest⟩

end EnvOk

/-! Statements without parts -/

variable {p : Place}

/-- What an expression of a place is typed against. -/
abbrev Place.context (p : Place) (funcs : List (String × Bool × Signature))
    (Δ : List TypeParam) : Typed.Context := p.env.context funcs Δ

theorem Place.operand_ensures (hconsts : ConstsOk p.consts C) {e : Expr} :
    Ensures (p.operand s e) (EnvOk (p.env.enter s) funcs Δ vars ∧ C) fun r =>
      ∀ x ∈ r, x.expr.Ok (p.context funcs Δ) vars :=
  Check.operand_ensures hconsts e

theorem exprStmt_ensures (hconsts : ConstsOk p.consts C) {e : Expr} :
    Ensures (exprStmt p s e) (EnvOk (p.env.enter s) funcs Δ vars ∧ C) fun r =>
      ∀ t ∈ r, Typed.Stmt.Ok (p.context funcs Δ) p.result vars t vars := by
  unfold exprStmt
  refine (Place.operand_ensures hconsts).bind fun r => ?_
  split
  next => exact .pure fun _ t ht => by cases ht
  next x =>
    split
    next hcall =>
      refine .pure fun h t ht => ?_
      obtain rfl := Option.mem_some.1 ht
      exact .expr (h.2 x rfl) hcall
    next => exact .fail

theorem assignStmt_ensures (hconsts : ConstsOk p.consts C) {lhs rhs : Expr} :
    Ensures (assignStmt p s lhs rhs) (EnvOk (p.env.enter s) funcs Δ vars ∧ C) fun r =>
      ∀ t ∈ r, Typed.Stmt.Ok (p.context funcs Δ) p.result vars t vars := by
  unfold assignStmt
  refine (Place.operand_ensures hconsts).bind fun x => ?_
  refine ((Place.operand_ensures hconsts).imp And.left fun _ _ h => h).bind fun y => ?_
  split
  next => exact .pure fun _ t ht => by cases ht
  next x =>
    split
    next => exact .fail
    next hvariable =>
      split
      next => exact .pure fun _ t ht => by cases ht
      next y =>
        refine assignable_ensures.bind fun ok => ?_
        split
        next hok =>
          refine .pure fun h t ht => ?_
          obtain ⟨⟨⟨⟨henv, _⟩, hx⟩, hy⟩, hassign⟩ := h
          obtain rfl := Option.mem_some.1 ht
          have hfits := (hassign hok).fits ((hy y rfl).scoped henv.sound)
            ((hx x rfl).scoped henv.sound)
          exact .assign (hx x rfl) (by simpa using hvariable) (hy y rfl) hfits
        next => exact .pure fun _ t ht => by cases ht

theorem condition_ensures (hconsts : ConstsOk p.consts C) {e : Expr} {word : String} :
    Ensures (condition p s e word) (EnvOk (p.env.enter s) funcs Δ vars ∧ C) fun r =>
      ∀ x ∈ r, x.Ok (p.context funcs Δ) vars ∧ x.ty = .bool := by
  unfold condition
  refine (Place.operand_ensures hconsts).bind fun r => ?_
  split
  next => exact .pure fun _ t ht => by cases ht
  next x =>
    refine hasValue_ensures.bind fun ok => ?_
    split
    next => exact .pure fun _ t ht => by cases ht
    next =>
      split
      next hbool =>
        refine .pure fun h t ht => ?_
        obtain rfl := Option.mem_some.1 ht
        refine ⟨h.1.2 x rfl, ?_⟩
        unfold Operand.ty at hbool
        cases hty : x.expr.ty <;> simp_all [Ty.isBool]
      next => exact .fail

theorem loopBound_ensures (hconsts : ConstsOk p.consts C) {e : Expr} :
    Ensures (loopBound p s e) (EnvOk (p.env.enter s) funcs Δ vars ∧ C) fun r =>
      ∀ x ∈ r, x.Ok (p.context funcs Δ) vars ∧ x.ty = .int := by
  unfold loopBound
  refine (Place.operand_ensures hconsts).bind fun r => ?_
  split
  next => exact .pure fun _ t ht => by cases ht
  next x =>
    refine hasValue_ensures.bind fun ok => ?_
    split
    next => exact .pure fun _ t ht => by cases ht
    next =>
      split
      next hint =>
        refine .pure fun h t ht => ?_
        obtain rfl := Option.mem_some.1 ht
        refine ⟨h.1.2 x rfl, ?_⟩
        unfold Operand.ty at hint
        cases hty : x.expr.ty <;> simp_all [Ty.isInt]
      next => exact .fail

theorem returnStmt_ensures (hconsts : ConstsOk p.consts C) {pos : Pos} {value : Option Expr} :
    Ensures (returnStmt p s pos value) ((EnvOk (p.env.enter s) funcs Δ vars ∧ C) ∧
      p.result.Scoped p.env.table.arity Δ) fun r =>
      ∀ t ∈ r, Typed.Stmt.Ok (p.context funcs Δ) p.result vars t vars := by
  cases value with
  | none =>
      rw [returnStmt]
      split
      next hvoid =>
        refine .pure fun _ t ht => ?_
        obtain rfl := Option.mem_some.1 ht
        exact .ret hvoid
      next => exact .fail
  | some e =>
      rw [returnStmt]
      refine ((Place.operand_ensures hconsts).imp And.left fun _ _ h => h).bind fun r => ?_
      split
      next => exact .pure fun _ t ht => by cases ht
      next x =>
        split
        next => exact .fail
        next hvalue =>
          refine assignable_ensures.bind fun ok => ?_
          split
          next hok =>
            refine .pure fun h t ht => ?_
            obtain ⟨⟨⟨⟨henv, _⟩, hresult⟩, hx⟩, hassign⟩ := h
            obtain rfl := Option.mem_some.1 ht
            have hfits := (hassign hok).fits ((hx x rfl).scoped henv.sound) hresult
            exact .retValue (hx x rfl) (by simpa using hvalue) hfits
          next => exact .pure fun _ t ht => by cases ht

theorem bindStmt_ensures (hconsts : ConstsOk p.consts C) {pos : Pos} {name : Ident}
    {type : TypeExpr} {value : Expr} :
    Ensures (bindStmt p s pos name type value) (EnvOk (p.env.enter s) funcs Δ vars ∧ C) fun r =>
      ∃ vars', EnvOk (p.env.enter r.1) funcs Δ vars' ∧ ∀ t ∈ r.2,
        Typed.Stmt.Ok (p.context funcs Δ) p.result vars t vars' := by
  unfold bindStmt
  refine ((varType_ensures (Δ := Δ)).imp (fun h => ⟨h.1.types, h.1.basic⟩) fun _ _ h => h).bind
    fun term => ?_
  refine ((Place.operand_ensures hconsts).imp And.left fun _ _ h => h).bind fun x => ?_
  have declared {v : Var} (henv : EnvOk (p.env.enter s) funcs Δ vars)
      (hv : v = ⟨name.text, name.pos, .localVar, tyOf term⟩)
      (hknown : ∃ t, term = some t ∧ t.ty.Scoped (p.env.enter s).table.arity Δ ∧
        t.ty.isVoid = false) (hnew : name.text ∉ s.names) :
      EnvOk (p.env.enter (s.push name.text (.var v))) funcs Δ (v :: vars) := by
    obtain ⟨t, rfl, hscoped, hvoid⟩ := hknown
    subst hv
    exact henv.declare (v := ⟨name.text, name.pos, .localVar, t.ty⟩) hnew hscoped hvoid
  dsimp only
  split
  next term x =>
    refine assignable_ensures.bind fun ok => ?_
    split
    next hok =>
      refine Watch.Ensures.bind (Q := fun r => r = some (.bind pos
        ⟨name.text, name.pos, .localVar, term.ty⟩ term x.expr)) (.pure fun _ => rfl) fun stmt => ?_
      refine declare_ensures.bind fun s' => .pure fun h => ?_
      obtain ⟨⟨⟨⟨⟨⟨henv, _⟩, hterm⟩, hx⟩, hassign⟩, rfl⟩, rfl, hnew⟩ := h
      refine ⟨_, declared henv rfl hterm hnew, fun t ht => ?_⟩
      obtain rfl := Option.mem_some.1 ht
      obtain ⟨term', heq, hscoped, hvoid⟩ := hterm
      cases heq
      have hfits := (hassign hok).fits ((hx x rfl).scoped henv.sound) hscoped
      exact .bind (hx x rfl) hscoped hvoid hfits
    next =>
      refine Watch.Ensures.bind (Q := fun r => r = none) (.pure fun _ => rfl) fun stmt => ?_
      refine declare_ensures.bind fun s' => .pure fun h => ?_
      obtain ⟨⟨⟨⟨⟨⟨henv, _⟩, hterm⟩, _⟩, _⟩, rfl⟩, rfl, hnew⟩ := h
      exact ⟨_, declared henv rfl hterm hnew, fun t ht => by cases ht⟩
  next =>
    refine Watch.Ensures.bind (Q := fun r => r = none) (.pure fun _ => rfl) fun stmt => ?_
    refine declare_ensures.bind fun s' => .pure fun h => ?_
    obtain ⟨⟨⟨⟨⟨henv, _⟩, hterm⟩, _⟩, rfl⟩, rfl, hnew⟩ := h
    exact ⟨_, declared henv rfl hterm hnew, fun t ht => by cases ht⟩

/-! All statements -/

/-- What holds where a statement stands. -/
def StandsIn (p : Place) (s : Scope Symbol) (funcs : List (String × Bool × Signature))
    (Δ : List TypeParam) (vars : List Var) (C : Prop) : Prop :=
  (EnvOk (p.env.enter s) funcs Δ vars ∧ C) ∧ p.result.Scoped p.env.table.arity Δ

theorem StandsIn.next {s' : Scope Symbol} {vars' : List Var}
    (h : StandsIn p s funcs Δ vars C) (henv : EnvOk (p.env.enter s') funcs Δ vars') :
    StandsIn p s' funcs Δ vars' C :=
  ⟨⟨henv, h.1.2⟩, h.2⟩

theorem StandsIn.inside (h : StandsIn p s funcs Δ vars C) (label : String) :
    StandsIn (p.enter s) { label } funcs Δ vars C :=
  ⟨⟨h.1.1.enter_empty label, h.1.2⟩, h.2⟩

mutual

theorem stmt_ensures {env : Env} {s : Scope Symbol} {result : Ty}
    (hconsts : ConstsOk consts C) (vars : List Var) : (x : Stmt) →
    Ensures (stmt ⟨env, consts, result⟩ s x)
      (StandsIn ⟨env, consts, result⟩ s funcs Δ vars C ∧ x.Shaped) fun r =>
      ∃ vars', EnvOk (env.enter r.1) funcs Δ vars' ∧ (x.isBranch = true → vars' = vars) ∧
        ∀ t ∈ r.2, Typed.Stmt.Ok (env.context funcs Δ) result vars t vars'
  | .empty pos => by
    unfold stmt
    refine .pure fun h => ⟨vars, h.1.1.1, fun _ => rfl, fun t ht => ?_⟩
    obtain rfl := Option.mem_some.1 ht
    exact .empty
  | .expr x => by
    unfold stmt
    refine ((exprStmt_ensures hconsts).imp (fun h => h.1.1) fun _ _ h => h).bind fun r => ?_
    exact .pure fun h => ⟨vars, h.1.1.1.1, fun _ => rfl, h.2⟩
  | .bind pos name type value => by
    unfold stmt
    refine (bindStmt_ensures hconsts).imp (fun h => h.1.1) fun _ r hr => ?_
    obtain ⟨vars', henv, hr⟩ := hr
    exact ⟨vars', henv, by simp [Stmt.isBranch], hr⟩
  | .assign lhs rhs => by
    unfold stmt
    refine ((assignStmt_ensures hconsts).imp (fun h => h.1.1) fun _ _ h => h).bind fun r => ?_
    exact .pure fun h => ⟨vars, h.1.1.1.1, fun _ => rfl, h.2⟩
  | .block body => by
    unfold stmt
    refine ((block_ensures hconsts vars body).imp (fun h => ⟨h.1, by simpa [Stmt.Shaped] using h.2⟩)
      fun _ _ h => h).bind fun r => .pure fun h => ?_
    obtain ⟨_, henv, hr⟩ := h
    refine ⟨vars, henv, fun _ => rfl, fun t ht => ?_⟩
    obtain ⟨⟨ts⟩, hts, rfl⟩ := Option.map_eq_some_iff.1 ht
    obtain ⟨vars', hok⟩ := hr _ hts
    exact .block hok
  | .ifElse pos cond body other => by
    unfold stmt
    refine ((condition_ensures hconsts).imp (fun h => h.1.1) fun _ _ h => h).bind fun c => ?_
    refine ((block_ensures hconsts vars body).imp (fun h => ⟨h.1.1, ?_⟩) fun _ _ h => h).bind
      fun (s₁, b) => ?_
    · exact (by simpa [Stmt.Shaped] using h.1.2 : _ ∧ _).1
    refine ((alternative_ensures hconsts vars other).imp
      (fun h => ⟨h.1.1.1.next h.2.1, ?_⟩) fun _ _ h => h).bind fun (s₂, o) => ?_
    · exact (by simpa [Stmt.Shaped] using h.1.1.2 : _ ∧ _).2
    dsimp only
    split
    next cond' body' other' =>
      refine .pure fun h => ?_
      obtain ⟨⟨⟨_, hcond⟩, _, hbody⟩, henv, hother⟩ := h
      refine ⟨vars, henv, fun _ => rfl, fun t ht => ?_⟩
      obtain rfl := Option.mem_some.1 ht
      obtain ⟨vars', hb⟩ := hbody _ rfl
      obtain ⟨hc, hbool⟩ := hcond _ rfl
      obtain ⟨ts⟩ := body'
      cases other' with
      | none => exact .ifThen hc hbool hb
      | some t => exact .ifElse hc hbool hb (hother _ rfl t rfl)
    next =>
      refine .pure fun h => ?_
      exact ⟨vars, h.2.1, fun _ => rfl, fun t ht => by cases ht⟩
  | .whileLoop pos cond body => by
    unfold stmt
    refine ((condition_ensures hconsts).imp (fun h => h.1.1) fun _ _ h => h).bind fun c => ?_
    refine ((block_ensures hconsts vars body).imp (fun h => ⟨h.1.1, ?_⟩) fun _ _ h => h).bind
      fun (s₁, b) => ?_
    · simpa [Stmt.Shaped] using h.1.2
    dsimp only
    split
    next cond' body' =>
      refine .pure fun h => ?_
      obtain ⟨⟨_, hcond⟩, henv, hbody⟩ := h
      refine ⟨vars, henv, fun _ => rfl, fun t ht => ?_⟩
      obtain rfl := Option.mem_some.1 ht
      obtain ⟨vars', hb⟩ := hbody _ rfl
      obtain ⟨hc, hbool⟩ := hcond _ rfl
      obtain ⟨ts⟩ := body'
      exact .whileLoop hc hbool hb
    next =>
      refine .pure fun h => ?_
      exact ⟨vars, h.2.1, fun _ => rfl, fun t ht => by cases ht⟩
  | .forLoop pos var range body => by
    unfold stmt
    refine ((loopBound_ensures hconsts).imp (fun h => h.1.1) fun _ _ h => h).bind fun low => ?_
    refine ((loopBound_ensures hconsts).imp (fun h => h.1.1.1) fun _ _ h => h).bind fun high => ?_
    dsimp only
    refine declare_ensures.bind fun loop => ?_
    refine ((block_ensures hconsts (⟨var.text, var.pos, .localVar, .int⟩ :: vars)
      body).imp (fun h => ?_) fun _ _ h => h).bind fun (s₁, b) => ?_
    · obtain ⟨⟨⟨⟨hin, hshape⟩, _⟩, _⟩, rfl, hnew⟩ := h
      refine ⟨hin.inside "for" |>.next ?_, by simpa [Stmt.Shaped] using hshape⟩
      exact (hin.inside "for").1.1.declare (v := ⟨var.text, var.pos, .localVar, .int⟩) hnew
        (by simp [Ty.Scoped]) rfl
    dsimp only
    split
    next low' high' body' =>
      refine .pure fun h => ?_
      obtain ⟨⟨⟨⟨⟨hin, _⟩, hlow⟩, hhigh⟩, _⟩, _, hbody⟩ := h
      refine ⟨vars, hin.1.1.nest, fun _ => rfl, fun t ht => ?_⟩
      obtain rfl := Option.mem_some.1 ht
      obtain ⟨vars', hb⟩ := hbody _ rfl
      obtain ⟨hlow, hlowInt⟩ := hlow _ rfl
      obtain ⟨hhigh, hhighInt⟩ := hhigh _ rfl
      obtain ⟨ts⟩ := body'
      exact .forLoop hlow hlowInt hhigh hhighInt rfl hb
    next =>
      refine .pure fun h => ?_
      exact ⟨vars, h.1.1.1.1.1.1.1.nest, fun _ => rfl, fun t ht => by cases ht⟩
  | .ret pos value => by
    unfold stmt
    refine ((returnStmt_ensures hconsts).imp (fun h => h.1) fun _ _ h => h).bind fun r => ?_
    exact .pure fun h => ⟨vars, h.1.1.1.1, fun _ => rfl, h.2⟩

theorem alternative_ensures {env : Env} {s : Scope Symbol} {result : Ty}
    (hconsts : ConstsOk consts C) (vars : List Var) : (other : Option Stmt) →
    Ensures (alternative ⟨env, consts, result⟩ s other)
      (StandsIn ⟨env, consts, result⟩ s funcs Δ vars C ∧ Stmt.OtherShaped other) fun r =>
      EnvOk (env.enter r.1) funcs Δ vars ∧ ∀ o ∈ r.2, ∀ t ∈ o,
        Typed.Stmt.Ok (env.context funcs Δ) result vars t vars
  | none => by
    unfold alternative
    refine .pure fun h => ⟨h.1.1.1, fun o ho t ht => ?_⟩
    obtain rfl := Option.mem_some.1 ho
    cases ht
  | some other => by
    unfold alternative
    refine ((stmt_ensures hconsts vars other).imp (fun h => ⟨h.1, ?_⟩) fun _ _ h => h).bind fun r =>
      .pure fun h => ?_
    · exact (by simpa [Stmt.OtherShaped] using h.2 : _ ∧ _).2
    · obtain ⟨⟨_, hshape⟩, vars', henv, hbranch, hr⟩ := h
      have hbranch' := hbranch (by simpa [Stmt.OtherShaped] using hshape : _ ∧ _).1
      subst hbranch'
      refine ⟨henv, fun o ho t ht => ?_⟩
      obtain ⟨t', ht', rfl⟩ := Option.map_eq_some_iff.1 ho
      obtain rfl := Option.mem_some.1 ht
      exact hr t' ht'

theorem block_ensures {env : Env} {s : Scope Symbol} {result : Ty}
    (hconsts : ConstsOk consts C) (vars : List Var) : (body : Block) →
    Ensures (block ⟨env, consts, result⟩ s body)
      (StandsIn ⟨env, consts, result⟩ s funcs Δ vars C ∧ body.Shaped) fun r =>
      EnvOk (env.enter r.1) funcs Δ vars ∧ ∀ b ∈ r.2, ∃ vars',
        Typed.StmtsOk (env.context funcs Δ) result vars b.stmts vars'
  | .mk pos list close => by
    unfold block
    refine ((stmts_ensures hconsts vars list).imp (fun h => ⟨h.1.inside "block", ?_⟩)
      fun _ _ h => h).bind fun r => .pure fun h => ?_
    · simpa [Block.Shaped] using h.2
    · obtain ⟨⟨hin, _⟩, vars', _, hr⟩ := h
      refine ⟨hin.1.1.nest, fun b hb => ?_⟩
      obtain ⟨ts, hts, rfl⟩ := Option.map_eq_some_iff.1 hb
      exact ⟨vars', hr ts hts⟩

theorem stmts_ensures {env : Env} {s : Scope Symbol} {result : Ty}
    (hconsts : ConstsOk consts C) (vars : List Var) : (list : List Stmt) →
    Ensures (stmts ⟨env, consts, result⟩ s list)
      (StandsIn ⟨env, consts, result⟩ s funcs Δ vars C ∧ Stmt.AllShaped list) fun r =>
      ∃ vars', EnvOk (env.enter r.1) funcs Δ vars' ∧
        ∀ ts ∈ r.2, Typed.StmtsOk (env.context funcs Δ) result vars ts vars'
  | [] => by
    unfold stmts
    refine .pure fun h => ⟨vars, h.1.1.1, fun ts hts => ?_⟩
    obtain rfl := Option.mem_some.1 hts
    exact .nil
  | x :: rest => by
    unfold stmts
    refine Watch.Ensures.full.bind fun full => ?_
    split
    next => exact .pure fun h => ⟨vars, h.1.1.1.1, fun t ht => by cases ht⟩
    next =>
      refine ((stmt_ensures hconsts vars x).imp (fun h => ⟨h.1.1, ?_⟩) fun _ _ h => h).bind
        fun (s₁, r) => ?_
      · exact (by simpa [Stmt.AllShaped] using h.1.2 : _ ∧ _).1
      refine Watch.Ensures.of_exists fun vars₁ => ?_
      refine ((stmts_ensures hconsts vars₁ rest).imp (fun h => ⟨h.1.1.1.next h.2.1, ?_⟩)
        fun _ _ h => h).bind fun (s₂, rs) => ?_
      · exact (by simpa [Stmt.AllShaped] using h.1.1.2 : _ ∧ _).2
      dsimp only
      split
      next t ts =>
        refine .pure fun h => ?_
        obtain ⟨⟨_, _, _, hfirst⟩, vars', henv, hrest⟩ := h
        refine ⟨vars', henv, fun us hus => ?_⟩
        obtain rfl := Option.mem_some.1 hus
        exact .cons (hfirst t rfl) (hrest ts rfl)
      next =>
        refine .pure fun h => ?_
        obtain ⟨_, vars', henv, _⟩ := h
        exact ⟨vars', henv, fun ts hts => by cases hts⟩

end

end Check

end ClassLang

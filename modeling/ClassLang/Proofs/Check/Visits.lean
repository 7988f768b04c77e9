import Mathlib
import ClassLang.Proofs.Check.Annotation
import ClassLang.Proofs.Tree.Encoded

/-!
What the checker comes to in the course of a unit, and in which session. Wherever it comes to an
expression that is given no type, an error has been reported by the end of that expression.
-/

namespace ClassLang

namespace Check

/-- Where a piece of code has its constants from: each is folded when it is needed, at most `fuel`
of them inside each other, or all have been folded. -/
inductive Source where
  | folding (decls : List ConstDecl) (fuel : Nat)
  | folded

namespace Source

/-- The constants as an expression in the environment `env` sees them. -/
def consts (env : Env) : Source → ConstSource
  | .folding decls fuel => constant env decls fuel
  | .folded => foldedValue

end Source

/-- Something that is checked in the course of a unit. -/
inductive Task where
  | constant (env : Env) (decls : List ConstDecl) (fuel : Nat) (name : String)
  | expr (env : Env) (source : Source) (e : Expr)
  | operands (env : Env) (source : Source) (es : List Expr)
  | elements (env : Env) (source : Source) (cls : String) (fields : List Field)
      (filling : Filling) (es : List (Ident × Expr))
  | elementValues (env : Env) (source : Source) (es : List (Ident × Expr))
  | stmt (env : Env) (result : Ty) (scope : Scope Symbol) (x : Stmt)
  | block (env : Env) (result : Ty) (scope : Scope Symbol) (body : Block)
  | stmts (env : Env) (result : Ty) (scope : Scope Symbol) (list : List Stmt)

/-! What happens between the parts of a task -/

/-- An argument of a call, which must have a value. -/
def argument (env : Env) (consts : ConstSource) (e : Expr) : Check Bool := do
  match ← operand env consts e with
  | some x => hasValue x
  | none => return false

/-- An element of an initializer. -/
def element (env : Env) (consts : ConstSource) (cls : String) (fields : List Field)
    (filling : Filling) (key : Ident) (value : Expr) : Check Filling := do
  fillField cls fields filling key (← operand env consts value)

/-- The error for a name that is called but is no function. -/
def notFunction (env : Env) (fn : Ident) : Check Unit :=
  if (env.lookup fn.text).isNone then
    report .unknownMethod fn.pos s!"undefined function: {fn.text}"
  else
    report .typeMismatch fn.pos s!"cannot call non-function {fn.text}"

/-- The error for a name that is initialized but is no class. -/
def notClass (env : Env) (cls : Ident) : Check Unit :=
  match env.lookup cls.text with
  | some (.basic _) | some (.typeParam ..) =>
    report .typeMismatch cls.pos s!"{cls.text} is not a class"
  | _ => report .unknownType cls.pos s!"undefined: {cls.text}"

/-- What of a call of a method comes before its arguments: the receiver and the method. -/
def callee (env : Env) (consts : ConstSource) (x : Expr) (sel : Ident) : Check Unit := do
  match ← operand env consts x with
  | none => return
  | some x => if ← hasValue x then discard (target env x sel)

/-- A condition and the block behind it. -/
def guarded (p : Place) (s : Scope Symbol) (cond : Expr) (word : String) (body : Block) :
    Check (Scope Symbol × Option Typed.Block) := do
  discard (condition p s cond word)
  block p s body

/-- The bounds of a counting loop and the scope of its variable. -/
def counter (p : Place) (s : Scope Symbol) (var : Ident) (range : Range) :
    Check (Scope Symbol) := do
  discard (loopBound p s range.low)
  discard (loopBound p s range.high)
  declare { label := "for" } var (.var ⟨var.text, var.pos, .localVar, .int⟩)

/-- The place of a statement in a body. -/
abbrev Env.place (env : Env) (result : Ty) : Place := ⟨env, foldedValue, result⟩

/-- In the course of the first task, begun in the first session, the checker comes to the second
task in the second session. There is one rule for each place in which the checker goes on to a part
of what it checks. -/
inductive Comes : Task → Session → Task → Session → Prop
  | constant {env decls fuel name d s} (found : decls.find? (·.name.text = name) = some d)
      (new : s.consts.lookup name = none)
      (basic : (tyOf ((varType env d.type).run (begun s name)).1).isInvalid = true ∨
        (tyOf ((varType env d.type).run (begun s name)).1).isBasic = true) :
      Comes (.constant env decls (fuel + 1) name) s (.expr env (.folding decls fuel) d.value)
        ((varType env d.type).run (begun s name)).2
  | name {env decls fuel id c s} (found : env.lookup id.text = some (.const c)) :
      Comes (.expr env (.folding decls fuel) (.name id)) s (.constant env decls fuel c.text) s
  | unary {env k pos op x s} : Comes (.expr env k (.unary pos op x)) s (.expr env k x) s
  | left {env k op x y s} : Comes (.expr env k (.binary op x y)) s (.expr env k x) s
  | right {env k op x y s} : Comes (.expr env k (.binary op x y)) s (.expr env k y)
      ((operand env (k.consts env) x).run s).2
  | call {env k fn args id host s} (found : env.lookup fn.text = some (.func id host)) :
      Comes (.expr env k (.call (.name fn) args)) s (.operands env k args) s
  | callUnknown {env k fn args s} (unknown : ∀ id host, env.lookup fn.text ≠ some (.func id host)) :
      Comes (.expr env k (.call (.name fn) args)) s (.operands env k args)
        ((notFunction env fn).run s).2
  | receiver {env k x sel args s} :
      Comes (.expr env k (.call (.select x sel) args)) s (.expr env k x) s
  | invoke {env k x sel args s} :
      Comes (.expr env k (.call (.select x sel) args)) s (.operands env k args)
        ((callee env (k.consts env) x sel).run s).2
  | callOther {env k fn args s} (name : ∀ id, fn ≠ .name id)
      (select : ∀ x sel, fn ≠ .select x sel) :
      Comes (.expr env k (.call fn args)) s (.operands env k args)
        ((report .typeMismatch fn.pos s!"cannot call {fn.text}").run s).2
  | select {env k x sel s} : Comes (.expr env k (.select x sel)) s (.expr env k x) s
  | init {env k cls elems id c s} (found : env.lookup cls.text = some (.cls id))
      (known : env.table.classNamed? id.text = some c) :
      Comes (.expr env k (.init cls elems)) s
        (.elements env k c.name (env.table.flatFields c.id) {} elems) s
  | initOther {env k cls elems s} (unknown : ∀ id, env.lookup cls.text ≠ some (.cls id)) :
      Comes (.expr env k (.init cls elems)) s (.elementValues env k elems)
        ((notClass env cls).run s).2
  | paren {env k pos x s} : Comes (.expr env k (.paren pos x)) s (.expr env k x) s
  | argument {env k e rest s} : Comes (.operands env k (e :: rest)) s (.expr env k e) s
  | arguments {env k e rest s} : Comes (.operands env k (e :: rest)) s (.operands env k rest)
      ((argument env (k.consts env) e).run s).2
  | element {env k cls fields filling key value rest s} :
      Comes (.elements env k cls fields filling ((key, value) :: rest)) s (.expr env k value) s
  | elements {env k cls fields filling key value rest s} :
      Comes (.elements env k cls fields filling ((key, value) :: rest)) s
        (.elements env k cls fields
          ((element env (k.consts env) cls fields filling key value).run s).1 rest)
        ((element env (k.consts env) cls fields filling key value).run s).2
  | elementValue {env k key value rest s} :
      Comes (.elementValues env k ((key, value) :: rest)) s (.expr env k value) s
  | elementValues {env k key value rest s} :
      Comes (.elementValues env k ((key, value) :: rest)) s (.elementValues env k rest)
        ((expr env (k.consts env) value).run s).2
  | exprStmt {env result scope e s} :
      Comes (.stmt env result scope (.expr e)) s (.expr (env.enter scope) .folded e) s
  | bind {env result scope pos name type value s} :
      Comes (.stmt env result scope (.bind pos name type value)) s
        (.expr (env.enter scope) .folded value) ((varType (env.enter scope) type).run s).2
  | assignLeft {env result scope lhs rhs s} :
      Comes (.stmt env result scope (.assign lhs rhs)) s (.expr (env.enter scope) .folded lhs) s
  | assignRight {env result scope lhs rhs s} :
      Comes (.stmt env result scope (.assign lhs rhs)) s (.expr (env.enter scope) .folded rhs)
        (((env.place result).operand scope lhs).run s).2
  | blockStmt {env result scope body s} :
      Comes (.stmt env result scope (.block body)) s (.block env result scope body) s
  | ifCond {env result scope pos cond body other s} :
      Comes (.stmt env result scope (.ifElse pos cond body other)) s
        (.expr (env.enter scope) .folded cond) s
  | ifBody {env result scope pos cond body other s} :
      Comes (.stmt env result scope (.ifElse pos cond body other)) s (.block env result scope body)
        ((condition (env.place result) scope cond "if").run s).2
  | ifOther {env result scope pos cond body other s} :
      Comes (.stmt env result scope (.ifElse pos cond body (some other))) s
        (.stmt env result ((guarded (env.place result) scope cond "if" body).run s).1.1 other)
        ((guarded (env.place result) scope cond "if" body).run s).2
  | whileCond {env result scope pos cond body s} :
      Comes (.stmt env result scope (.whileLoop pos cond body)) s
        (.expr (env.enter scope) .folded cond) s
  | whileBody {env result scope pos cond body s} :
      Comes (.stmt env result scope (.whileLoop pos cond body)) s (.block env result scope body)
        ((condition (env.place result) scope cond "while").run s).2
  | forLow {env result scope pos var range body s} :
      Comes (.stmt env result scope (.forLoop pos var range body)) s
        (.expr (env.enter scope) .folded range.low) s
  | forHigh {env result scope pos var range body s} :
      Comes (.stmt env result scope (.forLoop pos var range body)) s
        (.expr (env.enter scope) .folded range.high)
        ((loopBound (env.place result) scope range.low).run s).2
  | forBody {env result scope pos var range body s} :
      Comes (.stmt env result scope (.forLoop pos var range body)) s
        (.block (env.enter scope) result
          ((counter (env.place result) scope var range).run s).1 body)
        ((counter (env.place result) scope var range).run s).2
  | ret {env result scope pos e s} :
      Comes (.stmt env result scope (.ret pos (some e))) s (.expr (env.enter scope) .folded e) s
  | block {env result scope pos list close s} :
      Comes (.block env result scope (.mk pos list close)) s
        (.stmts (env.enter scope) result { label := "block" } list) s
  | first {env result scope x rest s} (notFull : s.errors.full = false) :
      Comes (.stmts env result scope (x :: rest)) s (.stmt env result scope x) s
  | rest {env result scope x rest s} (notFull : s.errors.full = false) :
      Comes (.stmts env result scope (x :: rest)) s
        (.stmts env result ((stmt (env.place result) scope x).run s).1.1 rest)
        ((stmt (env.place result) scope x).run s).2

/-- The tasks that the check of a collected unit begins with, each in the session that those before
it have left: its constants, the bodies of its functions, and those of its methods. -/
inductive Begins (f : File) (c : Collected) (s : Session) : Task → Session → Prop
  | const {before} {d : ConstDecl} {after} (split : f.consts = before ++ d :: after) :
      Begins f c s
        (.constant (CollectedOk.topEnv c) f.consts (f.consts.length + 1) d.name.text)
        ((foldAll (CollectedOk.topEnv c) f.consts before).run s).2
  | func {before} {d : FuncDecl} {after} {p : Prepared} {b : Block} {t : Session}
      (split : f.decls = before ++ .func d :: after)
      (left : t = ((declarations (CollectedOk.topEnv c) c {} before).run (afterConsts f c s)).2)
      (notFull : t.errors.full = false)
      (found : c.funcs.find? (·.decl.name.text = d.name.text) = some p)
      (body : p.decl.body = some b) :
      Begins f c s (.stmts (CollectedOk.topEnv c) p.header.sig.result p.scope b.stmts) t
  | method {before} {d : ClassDecl} {after} {m : Members} {first} {p : Prepared} {last}
      {b : Block} {t : Session} (split : f.decls = before ++ .cls d :: after)
      (left : t = ((declarations (CollectedOk.topEnv c) c {} before).run (afterConsts f c s)).2)
      (notFull : t.errors.full = false) (found : c.classes.lookup d.name.text = some m)
      (methods : m.methods = first ++ p :: last) (body : p.decl.body = some b) :
      Begins f c s
        (.stmts ((CollectedOk.topEnv c).enter m.scope) p.header.sig.result p.scope b.stmts)
        ((funcBodies ((CollectedOk.topEnv c).enter m.scope) m.scope first).run t).2

/-- The check of a unit, with at most `limit` errors kept, comes to a task in a session. -/
inductive Visits (f : File) (limit : Option Nat) : Task → Session → Prop
  | begin {c s t s'} (collected : (collection f).run { errors := { limit } } = (some c, s))
      (begins : Begins f c s t s') : Visits f limit t s'
  | step {t s t' s'} (before : Visits f limit t s) (comes : Comes t s t' s') : Visits f limit t' s'

/-! What is ready to be checked -/

variable {env : Env} {k : Source} {s : Session} {result : Ty} {scope : Scope Symbol}

/-- As long as there is no error, the constants that an expression needs are in order, and the
names of its environment are known. -/
def Source.Ready (env : Env) (s : Session) : Source → Prop
  | .folding decls fuel => ∃ funcs ready, s.Valid (env.folding funcs decls fuel ready) ∧
    EnvFull env funcs [] [] (constNames decls)
  | .folded => ∃ consts funcs Δ vars names, SourceOk { consts } foldedValue True names ∧
    s.Valid { consts } ∧ EnvFull env funcs Δ vars names

/-- The same for a part of a body with the form `shaped`. -/
def BodyReady (env : Env) (result : Ty) (scope : Scope Symbol) (s : Session) (shaped : Prop) :
    Prop :=
  ∃ consts funcs Δ vars names, SourceOk { consts } foldedValue True names ∧ s.Valid { consts } ∧
    StandsFull (env.place result) scope funcs Δ vars True names ∧ shaped

/-- What holds where a task is begun, as long as there is no error. -/
def Task.Ready (s : Session) : Task → Prop
  | .constant env decls fuel name => (Source.folding decls fuel).Ready env s ∧
    name ∈ constNames decls
  | .expr env k _ => k.Ready env s
  | .operands env k _ => k.Ready env s
  | .elements env k _ _ filling _ => k.Ready env s ∧ filling.ok = true
  | .elementValues env k _ => k.Ready env s
  | .stmt env result scope x => BodyReady env result scope s x.Shaped
  | .block env result scope body => BodyReady env result scope s body.Shaped
  | .stmts env result scope list => BodyReady env result scope s (Stmt.AllShaped list)

theorem SourceOk.here {w : Watch} {consts : ConstSource} {C : Prop} {names : List String}
    (h : SourceOk w consts C names) (hC : C) : SourceOk w consts True names where
  refines := h.refines
  values name := (h.values name).imp (fun _ => hC) fun _ _ h => h
  known name := (h.known name).imp (fun h => ⟨hC, h.2⟩) fun _ _ h => h

/-- Where nothing is known of the constants, nothing is promised. -/
theorem Source.unknown (env : Env) (k : Source) :
    SourceOk .values (k.consts env) False [] := by
  obtain ⟨C, hconsts⟩ : ∃ C, ConstsOk (k.consts env) C := by
    cases k with
    | folding decls fuel => exact ⟨EnvOk env [] [] [], constant_ensures⟩
    | folded => exact ⟨True, foldedValue_ok⟩
  exact ⟨fun _ h => h, fun name => (hconsts name).imp False.elim fun _ _ h => h,
    fun name => (hconsts name).vacuous fun h => h.1⟩

/-- A step that is made in an environment promises `Q` if all is in order there. -/
def Passes {α : Type} (env : Env) (k : Source) (m : Check α) (Q : α → Prop) : Prop :=
  ∀ w C funcs Δ vars names, SourceOk w (k.consts env) C names →
    w.Ensures m (EnvFull env funcs Δ vars names ∧ C) Q

theorem Passes.follows {α : Type} {m : Check α} {Q : α → Prop} (hm : Passes env k m Q)
    (s : Session) : s.errors.Follows (m.run s).2.errors :=
  (hm .values False [] [] [] [] (k.unknown env)).follows s

/-- Behind such a step the source is still in order. -/
theorem Source.Ready.run {α : Type} {m : Check α} {Q : α → Prop} (h : k.Ready env s)
    (hm : Passes env k m Q) (hclean : (m.run s).2.Clean) :
    k.Ready env (m.run s).2 ∧ Q (m.run s).1 := by
  cases k with
  | folding decls fuel =>
      obtain ⟨funcs, ready, hvalid, henv⟩ := h
      have hsource := (constant_source env funcs decls ready fuel).here henv
      obtain ⟨hvalid', hq⟩ := (hm _ _ _ _ _ _ hsource).run_clean hclean hvalid ⟨henv, trivial⟩
      exact ⟨⟨funcs, ready, hvalid', henv⟩, hq⟩
  | folded =>
      obtain ⟨consts, funcs, Δ, vars, names, hsource, hvalid, henv⟩ := h
      obtain ⟨hvalid', hq⟩ := (hm _ _ _ _ _ _ hsource).run_clean hclean hvalid ⟨henv, trivial⟩
      exact ⟨⟨consts, funcs, Δ, vars, names, hsource, hvalid', henv⟩, hq⟩

theorem expr_passes (env : Env) (k : Source) (e : Expr) :
    Passes env k (expr env (k.consts env) e) fun r => r.isSome = true :=
  fun _ _ _ _ _ _ hsource => expr_answers hsource e

theorem operand_passes (env : Env) (k : Source) (e : Expr) :
    Passes env k (operand env (k.consts env) e) fun r => r.isSome = true :=
  fun _ _ _ _ _ _ hsource => (operand_answers hsource e).imp id fun _ r h => by
    obtain ⟨x, rfl, _⟩ := h
    rfl

theorem argument_passes (env : Env) (k : Source) (e : Expr) :
    Passes env k (argument env (k.consts env) e) fun ok => ok = true := by
  intro w C funcs Δ vars names hsource
  unfold argument
  refine (operand_answers hsource e).bind fun r => ?_
  split
  next => exact hasValue_ensures.imp id fun _ _ h => h.1
  next hnone => exact .pure fun h => by simp at h

theorem callee_passes (env : Env) (k : Source) (x : Expr) (sel : Ident) :
    Passes env k (callee env (k.consts env) x sel) fun _ => True := by
  intro w C funcs Δ vars names hsource
  unfold callee
  refine (operand_answers hsource x).bind fun r => ?_
  split
  next => exact .pure fun _ => trivial
  next =>
    refine hasValue_ensures.bind fun ok => ?_
    split
    next => exact .discard (target_answers.imp id fun _ _ _ => trivial)
    next => exact .pure fun _ => trivial

theorem element_passes (env : Env) (k : Source) (cls : String) (fields : List Field)
    (filling : Filling) (key : Ident) (value : Expr) :
    Passes env k (element env (k.consts env) cls fields filling key value) fun r =>
      filling.ok = true → r.ok = true := by
  intro w C funcs Δ vars names hsource
  unfold element
  refine (operand_answers hsource value).bind fun r => ?_
  refine fillField_answers.imp id fun h _ hfill hok => ?_
  obtain ⟨_, x, rfl, _⟩ := h
  exact hfill hok rfl

theorem varType_passes (env : Env) (k : Source) (t : TypeExpr) :
    Passes env k (varType env t) fun _ => True :=
  fun _ _ _ _ _ _ _ => varType_ensures.imp (fun h => ⟨h.1.types, h.1.basic⟩) fun _ _ _ => trivial

/-! Parts of bodies -/

theorem BodyReady.expr {shaped : Prop} (h : BodyReady env result scope s shaped) :
    Source.folded.Ready (env.enter scope) s := by
  obtain ⟨consts, funcs, Δ, vars, names, hsource, hvalid, hstands, _⟩ := h
  exact ⟨consts, funcs, Δ, vars, names, hsource, hvalid, hstands.full.1⟩

theorem BodyReady.imp {shaped shaped' : Prop} (h : BodyReady env result scope s shaped)
    (himp : shaped → shaped') : BodyReady env result scope s shaped' := by
  obtain ⟨consts, funcs, Δ, vars, names, hsource, hvalid, hstands, hshape⟩ := h
  exact ⟨consts, funcs, Δ, vars, names, hsource, hvalid, hstands, himp hshape⟩

theorem BodyReady.inside {shaped : Prop} (h : BodyReady env result scope s shaped)
    (label : String) : BodyReady (env.enter scope) result { label } s shaped := by
  obtain ⟨consts, funcs, Δ, vars, names, hsource, hvalid, hstands, hshape⟩ := h
  exact ⟨consts, funcs, Δ, vars, names, hsource, hvalid, hstands.inside label, hshape⟩

/-- A step of a body that leads to a place where the form is `shaped'`. -/
def Proceeds {α : Type} (env : Env) (result : Ty) (scope : Scope Symbol) (shaped : Prop)
    (m : Check α) (env' : Env) (scope' : α → Scope Symbol) (shaped' : Prop) : Prop :=
  ∀ w C funcs Δ vars names, SourceOk w foldedValue C names →
    w.Ensures m (StandsFull (env.place result) scope funcs Δ vars C names ∧ shaped) fun a =>
      ∃ vars', StandsFull (env'.place result) (scope' a) funcs Δ vars' C names ∧ shaped'

variable {α : Type} {m : Check α} {env' : Env} {scope' : α → Scope Symbol} {shaped shaped' : Prop}

theorem Proceeds.follows (hm : Proceeds env result scope shaped m env' scope' shaped')
    (s : Session) : s.errors.Follows (m.run s).2.errors :=
  (hm .values False [] [] [] [] (Source.unknown env .folded)).follows s

theorem BodyReady.run (h : BodyReady env result scope s shaped)
    (hm : Proceeds env result scope shaped m env' scope' shaped')
    (hclean : (m.run s).2.Clean) :
    BodyReady env' result (scope' (m.run s).1) (m.run s).2 shaped' := by
  obtain ⟨consts, funcs, Δ, vars, names, hsource, hvalid, hstands, hshape⟩ := h
  obtain ⟨hvalid', vars', hstands', hshape'⟩ :=
    (hm _ _ _ _ _ _ hsource).run_clean hclean hvalid ⟨hstands, hshape⟩
  exact ⟨consts, funcs, Δ, vars', names, hsource, hvalid', hstands', hshape'⟩

/-- A step that declares nothing leads to the same place. -/
theorem proceeds_of_passes {Q : α → Prop} (result : Ty) (hm : Passes (env.enter scope) .folded m Q)
    (himp : shaped → shaped') :
    Proceeds env result scope shaped m env (fun _ => scope) shaped' :=
  fun w C funcs Δ vars names hsource => (hm w C funcs Δ vars names hsource).imp
    (fun h => h.1.full) fun h _ _ => ⟨vars, h.1, himp h.2⟩

theorem condition_passes (env : Env) (result : Ty) (scope : Scope Symbol) (cond : Expr)
    (word : String) : Passes (env.enter scope) .folded
      (condition (env.place result) scope cond word) fun r => r.isSome = true :=
  fun _ _ _ _ _ _ hsource => condition_answers hsource

theorem loopBound_passes (env : Env) (result : Ty) (scope : Scope Symbol) (e : Expr) :
    Passes (env.enter scope) .folded (loopBound (env.place result) scope e) fun r =>
      r.isSome = true :=
  fun _ _ _ _ _ _ hsource => loopBound_answers hsource

theorem block_proceeds (body : Block) : Proceeds env result scope body.Shaped
    (block (env.place result) scope body) env (·.1) True := by
  intro w C funcs Δ vars names hsource
  refine ((block_answers hsource vars body).also hsource.refines
    (block_ensures hsource.values vars body)).imp (fun h => ⟨⟨h.1.stands, h.2⟩, h⟩) fun h r hr => ?_
  exact ⟨vars, h.1.next hr.1.1 hr.2.2, trivial⟩

theorem guarded_proceeds (cond : Expr) (word : String) (body : Block) :
    Proceeds env result scope (body.Shaped ∧ shaped)
      (guarded (env.place result) scope cond word body) env (·.1) shaped := by
  intro w C funcs Δ vars names hsource
  unfold guarded
  refine Watch.Ensures.bind (.discard (Q := fun _ => True) ((condition_answers hsource).imp
    (fun h => h.1.full) fun _ _ _ => trivial)) fun _ => ?_
  refine (block_proceeds body w C funcs Δ vars names hsource).imp
    (fun h => ⟨h.1.1, h.1.2.1⟩) fun h r hr => ?_
  obtain ⟨vars', hstands, _⟩ := hr
  exact ⟨vars', hstands, h.1.2.2⟩

theorem counter_proceeds (var : Ident) (range : Range) :
    Proceeds env result scope shaped (counter (env.place result) scope var range)
      (env.enter scope) id shaped := by
  intro w C funcs Δ vars names hsource
  unfold counter
  refine Watch.Ensures.bind (.discard (Q := fun _ => True) ((loopBound_answers hsource).imp
    (fun h => h.1.full) fun _ _ _ => trivial)) fun _ => ?_
  refine Watch.Ensures.bind (.discard (Q := fun _ => True) ((loopBound_answers hsource).imp
    (fun h => h.1.1.full) fun _ _ _ => trivial)) fun _ => ?_
  refine declare_ensures.imp id fun h s' hs' => ?_
  obtain ⟨rfl, hnew⟩ := hs'
  exact ⟨_, h.1.1.1.counting hnew, h.1.1.2⟩

theorem stmt_proceeds (x : Stmt) : Proceeds env result scope (x.Shaped ∧ shaped)
    (stmt (env.place result) scope x) env (·.1) shaped := by
  intro w C funcs Δ vars names hsource
  have hvalues : Ensures (stmt (env.place result) scope x)
      (StandsIn (env.place result) scope funcs Δ vars C ∧ x.Shaped) _ :=
    stmt_ensures hsource.values vars x
  refine ((stmt_answers hsource vars x).also hsource.refines hvalues).imp
    (fun h => ⟨⟨h.1.stands, h.2.1⟩, h.1, h.2.1⟩) fun h r hr => ?_
  obtain ⟨⟨vars', henv, _⟩, _, hlocals⟩ := hr
  exact ⟨vars', h.1.next henv hlocals, h.2.2⟩

/-! From one task to the next -/

theorem notFunction_run (env : Env) (fn : Ident) (s : Session) :
    s.errors.Follows ((notFunction env fn).run s).2.errors ∧
      ¬ ((notFunction env fn).run s).2.Clean := by
  unfold notFunction
  split
  all_goals exact ⟨⟨[_], rfl⟩, Collector.not_clean_add s.errors _⟩

theorem notClass_run (env : Env) (cls : Ident) (s : Session) :
    s.errors.Follows ((notClass env cls).run s).2.errors ∧
      ¬ ((notClass env cls).run s).2.Clean := by
  unfold notClass
  split
  all_goals exact ⟨⟨[_], rfl⟩, Collector.not_clean_add s.errors _⟩

/-- Errors stay from one task to the next, and where there is none, the next one is as ready as
the one before. -/
theorem Comes.ready {t t' : Task} {s s' : Session} (h : Comes t s t' s') :
    s.errors.Follows s'.errors ∧ (s'.Clean → t.Ready s → t'.Ready s') := by
  cases h with
  | @constant env decls fuel name d s found new basic =>
      refine ⟨((varType_passes env .folded d.type).follows (begun s name)), fun hclean h => ?_⟩
      obtain ⟨⟨funcs, ready, hvalid, henv⟩, _⟩ := h
      have hbusy : Source.Ready env (begun s name) (.folding decls fuel) :=
        ⟨funcs, ready, Folds.push_busy hvalid found new, henv⟩
      exact (hbusy.run (varType_passes env _ d.type) hclean).1
  | @name env decls fuel id c s found =>
      refine ⟨.refl _, fun _ h => ⟨h, ?_⟩⟩
      obtain ⟨funcs, ready, _, henv⟩ := h
      exact henv.const_known _ _ found
  | unary | left | call | receiver | select | paren | argument | elementValue =>
      exact ⟨.refl _, fun _ h => h⟩
  | @right env k op x y s =>
      exact ⟨(operand_passes env k x).follows s,
        fun hclean h => (h.run (operand_passes env k x) hclean).1⟩
  | @callUnknown env k fn args s =>
      exact ⟨(notFunction_run env fn s).1, fun hclean => absurd hclean (notFunction_run env fn s).2⟩
  | @invoke env k x sel args s =>
      exact ⟨(callee_passes env k x sel).follows s,
        fun hclean h => (h.run (callee_passes env k x sel) hclean).1⟩
  | callOther =>
      exact ⟨⟨[_], rfl⟩, fun hclean => absurd hclean (Collector.not_clean_add s.errors _)⟩
  | init => exact ⟨.refl _, fun _ h => ⟨h, rfl⟩⟩
  | @initOther env k cls elems s =>
      exact ⟨(notClass_run env cls s).1, fun hclean => absurd hclean (notClass_run env cls s).2⟩
  | @arguments env k e rest s =>
      exact ⟨(argument_passes env k e).follows s,
        fun hclean h => (h.run (argument_passes env k e) hclean).1⟩
  | element => exact ⟨.refl _, fun _ h => h.1⟩
  | @elements env k cls fields filling key value rest s =>
      refine ⟨(element_passes env k cls fields filling key value).follows s, fun hclean h => ?_⟩
      obtain ⟨hready, hok⟩ := h.1.run (element_passes env k cls fields filling key value) hclean
      exact ⟨hready, hok h.2⟩
  | @elementValues env k key value rest s =>
      exact ⟨(expr_passes env k value).follows s,
        fun hclean h => (h.run (expr_passes env k value) hclean).1⟩
  | exprStmt | assignLeft | ifCond | whileCond | forLow | ret =>
      exact ⟨.refl _, fun _ h => h.expr⟩
  | @bind env result scope pos name type value s =>
      exact ⟨(varType_passes (env.enter scope) .folded type).follows s,
        fun hclean h => (h.expr.run (varType_passes (env.enter scope) .folded type) hclean).1⟩
  | @assignRight env result scope lhs rhs s =>
      exact ⟨(operand_passes (env.enter scope) .folded lhs).follows s,
        fun hclean h => (h.expr.run (operand_passes (env.enter scope) .folded lhs) hclean).1⟩
  | blockStmt => exact ⟨.refl _, fun _ h => h.imp fun h => by simpa [Stmt.Shaped] using h⟩
  | @ifBody env result scope pos cond body other s =>
      have hproceeds := proceeds_of_passes result (condition_passes env result scope cond "if")
        (fun h : (Stmt.ifElse pos cond body other).Shaped =>
          (by simpa [Stmt.Shaped] using h : body.Shaped ∧ _).1)
      exact ⟨hproceeds.follows s, fun hclean h => h.run hproceeds hclean⟩
  | @ifOther env result scope pos cond body other s =>
      have hproceeds : Proceeds env result scope (body.Shaped ∧ other.Shaped)
          (guarded (env.place result) scope cond "if" body) env (·.1) other.Shaped :=
        guarded_proceeds cond "if" body
      refine ⟨hproceeds.follows s, fun hclean h => (h.imp fun h => ?_).run hproceeds hclean⟩
      have hshape : body.Shaped ∧ Stmt.OtherShaped (some other) := by
        simpa [Stmt.Shaped] using h
      exact ⟨hshape.1, (by simpa [Stmt.OtherShaped] using hshape.2 : _ ∧ _).2⟩
  | @whileBody env result scope pos cond body s =>
      have hproceeds := proceeds_of_passes result (condition_passes env result scope cond "while")
        (fun h : (Stmt.whileLoop pos cond body).Shaped =>
          (by simpa [Stmt.Shaped] using h : body.Shaped))
      exact ⟨hproceeds.follows s, fun hclean h => h.run hproceeds hclean⟩
  | @forHigh env result scope pos var range body s =>
      exact ⟨(loopBound_passes env result scope range.low).follows s,
        fun hclean h => (h.expr.run (loopBound_passes env result scope range.low) hclean).1⟩
  | @forBody env result scope pos var range body s =>
      have hproceeds : Proceeds env result scope body.Shaped _ (env.enter scope) id body.Shaped :=
        counter_proceeds var range
      refine ⟨hproceeds.follows s, fun hclean h => (h.imp fun h => ?_).run hproceeds hclean⟩
      simpa [Stmt.Shaped] using h
  | block =>
      exact ⟨.refl _, fun _ h => (h.inside "block").imp fun h => by simpa [Block.Shaped] using h⟩
  | first =>
      exact ⟨.refl _, fun _ h => h.imp fun h => (by simpa [Stmt.AllShaped] using h : _ ∧ _).1⟩
  | @rest env result scope x rest s =>
      have hproceeds : Proceeds env result scope (x.Shaped ∧ Stmt.AllShaped rest)
          (stmt (env.place result) scope x) env (·.1) (Stmt.AllShaped rest) := stmt_proceeds x
      refine ⟨hproceeds.follows s, fun hclean h => (h.imp fun h => ?_).run hproceeds hclean⟩
      simpa [Stmt.AllShaped] using h

/-! Whole units -/

variable {f : File} {c : Collected}

/-- What is checked before a declaration leaves the constants of the unit in order. -/
theorem declarations_valid (hc : CollectedOk f c) (hshape : ∀ d ∈ f.decls, d.Shaped)
    (hs : s.consts = []) {before after : List Decl} (hsplit : f.decls = before ++ after)
    {t : Session}
    (ht : t = ((declarations (CollectedOk.topEnv c) c {} before).run (afterConsts f c s)).2) :
    s.errors.Follows t.errors ∧ (t.Clean → t.Valid (CollectedOk.watch f c)) := by
  have hbefore : ∀ d ∈ before, d ∈ f.decls ∧ d.Shaped := fun d hd => by
    have hmem : d ∈ f.decls := by
      rw [hsplit]
      exact List.mem_append_left _ hd
    exact ⟨hmem, hshape d hmem⟩
  have hdecls := declarations_annotates hc (watches_self f c) {} hbefore
  obtain ⟨hadds, hvalid⟩ := afterConsts_valid hc hs
  have hadds' := hdecls.follows (afterConsts f c s)
  rw [ht]
  refine ⟨hadds.trans hadds', fun hclean => ?_⟩
  exact (hdecls.run_clean hclean (hvalid (hadds'.clean hclean)).2 trivial).1

/-- Every task that the check of a unit begins with is ready as long as there is no error. -/
theorem Begins.ready (hc : CollectedOk f c) (hshape : ∀ d ∈ f.decls, d.Shaped)
    (hs : s.consts = []) {t : Task} {s' : Session} (h : Begins f c s t s') :
    s.errors.Follows s'.errors ∧ (s'.Clean → t.Ready s') := by
  cases h with
  | @const before d after split =>
      have hmem : d ∈ f.consts := by simp [split]
      have hbefore : ∀ d ∈ before, d ∈ f.consts := fun d hd => by simp [split, hd]
      obtain ⟨hadds, hrest⟩ := foldAll_folds (CollectedOk.topEnv c)
        (CollectedOk.signatures c) [] hbefore s
      refine ⟨hadds, fun hclean => ⟨⟨CollectedOk.signatures c,
        (constNames before).reverse ++ [], ?_, hc.envFull⟩, ?_⟩⟩
      · exact (hrest hclean).2 (valid_of_unfolded hs) hc.envFull
      · exact List.mem_map_of_mem hmem
  | @func before d after p b t split left notFull found body =>
      have hmem : Decl.func d ∈ f.decls := by simp [split]
      obtain ⟨hp, rfl⟩ := hc.find_func hmem found
      obtain ⟨hadds, hvalid⟩ := declarations_valid hc hshape hs split left
      refine ⟨hadds, fun hclean => ⟨_, CollectedOk.signatures c, _, _, _, CollectedOk.source f c,
        hvalid hclean, hc.envFull.stands (hc.funcs.prepared p hp).2.2.2 (by simp), ?_⟩⟩
      have hbody := (hshape _ hmem).1.body b body
      obtain ⟨_, list, _⟩ := b
      simpa [Block.Shaped, Block.stmts] using hbody
  | @method before d after m first p last b t split left notFull found methods body =>
      have hmem : Decl.cls d ∈ f.decls := by simp [split]
      obtain ⟨id, info, hinfo, hdecl, hok⟩ := hc.members_of hmem found
      obtain ⟨hadds, hvalid⟩ := declarations_valid hc hshape hs split left
      have hheader : ∀ p ∈ m.methods, p.decl ∈ d.methods ∧
          HeaderOk c.table.arity info.tparams (some (selfType info)) p.decl p.header p.scope := by
        refine fun p hp => ⟨?_, (hok.method_decls.prepared p hp).2.2.2⟩
        rw [← hdecl, ← hok.method_decls.decls]
        exact List.mem_map_of_mem hp
      have hfirst : (CollectedOk.watch f c).Ensures
          (funcBodies ((CollectedOk.topEnv c).enter m.scope) m.scope first) _ _ :=
        funcBodies_annotates (CollectedOk.source f c) (CollectedOk.signatures c) info.tparams
          (some (selfType info)) first
      refine ⟨hadds.trans (hfirst.follows t), fun hclean => ?_⟩
      have hvalid' := (hfirst.run_clean hclean (hvalid ((hfirst.follows t).clean hclean))
        ⟨.enter_class hc hok, selfType_known hc hinfo, fun p hp => ?_⟩).1
      · obtain ⟨hp, hpok⟩ := hheader p (by simp [methods])
        refine ⟨_, CollectedOk.signatures c, _, _, _, CollectedOk.source f c, hvalid',
          (EnvFull.enter_class hc hok).stands hpok (selfType_known hc hinfo), ?_⟩
        have hbody := (hshape _ hmem p.decl hp).1.body b body
        obtain ⟨_, list, _⟩ := b
        simpa [Block.Shaped, Block.stmts] using hbody
      · obtain ⟨hp, hpok⟩ := hheader p (by simp [methods, hp])
        exact ⟨hpok, (hshape _ hmem p.decl hp).1.body, fun _ => rfl⟩

/-- Wherever the check of a unit comes to, all is ready as long as there is no error. -/
theorem Visits.ready (hshape : ∀ d ∈ f.decls, d.Shaped) {limit : Option Nat}
    (hlimit : limit ≠ some 0)
    {t : Task} {s : Session} (h : Visits f limit t s) :
    Collector.Follows { limit } s.errors ∧ (s.Clean → t.Ready s) := by
  induction h with
  | @begin c s t s' collected begins =>
      obtain ⟨herrors, hs, hc⟩ := collection_ok hlimit collected
      rw [← herrors]
      exact begins.ready hc hshape hs
  | step _ comes ih =>
      obtain ⟨hadds, hready⟩ := comes.ready
      exact ⟨ih.1.trans hadds, fun hclean => hready hclean (ih.2 (hadds.clean hclean))⟩

/-- No expression fails in silence: one that is given no type has caused an error by its end. -/
theorem Visits.expr_failed (hshape : ∀ d ∈ f.decls, d.Shaped) {limit : Option Nat}
    (hlimit : limit ≠ some 0) {env : Env} {k : Source} {e : Expr} {s : Session}
    (h : Visits f limit (.expr env k e) s)
    (hnone : ((expr env (k.consts env) e).run s).1 = none) :
    ((expr env (k.consts env) e).run s).2.errors.failed = true := by
  obtain ⟨hadds, hready⟩ := h.ready hshape hlimit
  have hadds' := (expr_passes env k e).follows s
  cases hfailed : ((expr env (k.consts env) e).run s).2.errors.failed with
  | true => rfl
  | false =>
      have hkept : ((expr env (k.consts env) e).run s).2.errors.kept = [] := by
        simpa [Collector.failed] using hfailed
      have hclean : ((expr env (k.consts env) e).run s).2.Clean := by
        rw [Session.Clean, (hadds.trans hadds').eq_of_kept hlimit hkept]
        exact ⟨rfl, rfl⟩
      have hsome := ((hready (hadds'.clean hclean)).run (expr_passes env k e) hclean).2
      rw [hnone] at hsome
      cases hsome

end Check

/-- Nothing fails in silence. Wherever the check of a text comes to an expression that is given no
type, an error has been reported by the end of that expression. So a text is never turned down
without an error, and the tree of one that passes has the sites of the text, all annotated: each
value expression with a type, each call with its target and as many parameters as arguments, each
initializer with its class, and each name of a variable with the variable. -/
theorem no_silent_failure {name : String} {bytes : List UInt8} {limit : Option Nat}
    (hparse : (parseFile name bytes).reports = []) (hlimit : limit ≠ some 0) :
    (∀ env k e s, Check.Visits (parseFile name bytes).file limit (.expr env k e) s →
      ((Check.expr env (k.consts env) e).run s).1 = none →
        ((Check.expr env (k.consts env) e).run s).2.errors.failed = true) ∧
    (parseFile name bytes).file.check limit ≠ .error [] ∧
    ∀ u, (parseFile name bytes).file.check limit = .ok u →
      u.sites.map (·.erase) = (parseFile name bytes).file.sites ∧
        ∀ n ∈ u.sites, n.Annotated u.facts := by
  obtain ⟨_, _, hshape⟩ := parseFile_clean hparse
  exact ⟨fun env k e s hvisits hnone => hvisits.expr_failed hshape hlimit hnone,
    File.check_ne_silent hshape hlimit, fun u hu => File.check_annotates hshape hu hlimit⟩

/-- A text with a loop, a call, an initializer and a field. -/
def countText : List UInt8 :=
  "class B{x:int}fun f(n:int){for i in[1,n]{f(B:init(x:i).x);}}".toUTF8.toList

/-- A text with a constant whose value is not declared. -/
def unnamedText : List UInt8 := "const k:int=other;".toUTF8.toList

open Check in
theorem countText_annotated :
    (∃ u, (parseFile "t" countText).file.check none = .ok u ∧ u.sites.length = 9 ∧
      u.sites.map (·.erase) = (parseFile "t" countText).file.sites ∧
      ∀ n ∈ u.sites, n.Annotated u.facts) ∧
    ∃ env k e s, Visits (parseFile "t" unnamedText).file none (.expr env k e) s ∧
      ((expr env (k.consts env) e).run s).1 = none ∧
      ((expr env (k.consts env) e).run s).2.errors.failed = true := by
  have hcount : (fun r : Parsed => (r.reports, (r.file.check none).toOption.map fun u =>
      u.sites.length)) (parseFile "t" countText) = ([], some 9) := by
    rw [countText, parseFile_ofList]
    decide +kernel
  -- the session is written out here, since it stands for one that is only known to exist
  have hunnamed : (fun r : Parsed => (r.reports,
      ((collection r.file).run { errors := { limit := none } }).1.map fun c =>
        r.file.consts.map fun d =>
          let v := (varType (CollectedOk.topEnv c) d.type).run
            (begun ((collection r.file).run { errors := { limit := none } }).2 d.name.text)
          ((tyOf v.1).isBasic, ((expr (CollectedOk.topEnv c)
            (constant (CollectedOk.topEnv c) r.file.consts 1) d.value).run v.2).1.isNone)))
      (parseFile "t" unnamedText) = ([], some [(true, true)]) := by
    rw [unnamedText, parseFile_ofList]
    decide +kernel
  constructor
  · obtain ⟨hparse, u, hcheck, hlength⟩ := Parsed.exists_checked hcount
    exact ⟨u, hcheck, hlength, (no_silent_failure hparse (by simp)).2.2 u hcheck⟩
  · obtain ⟨hparse, hvisits⟩ := Prod.mk.inj hunnamed
    obtain ⟨c, hc, hvisits⟩ := Option.map_eq_some_iff.1 hvisits
    obtain ⟨d, hd, hvisits⟩ := List.map_eq_singleton_iff.1 hvisits
    obtain ⟨hbasic, hnone⟩ := Prod.mk.inj hvisits
    have hcollected : (collection (parseFile "t" unnamedText).file).run
        { errors := { limit := none } } = (some c, _) := Prod.ext hc rfl
    have hfirst := Visits.begin hcollected
      (.const (show (parseFile "t" unnamedText).file.consts = [] ++ d :: [] from hd))
    have hfuel : (parseFile "t" unnamedText).file.consts.length + 1 = 2 := by simp [hd]
    rw [hfuel] at hfirst
    have hvisits := Visits.step hfirst (.constant (by simp [hd])
      (congrArg (List.lookup d.name.text) (collection_ok (by simp) hcollected).2.1)
      (.inr hbasic))
    have hnone := Option.isNone_iff_eq_none.1 hnone
    exact ⟨_, _, _, _, hvisits, hnone, (no_silent_failure hparse (by simp)).1 _ _ _ _ hvisits hnone⟩

end ClassLang

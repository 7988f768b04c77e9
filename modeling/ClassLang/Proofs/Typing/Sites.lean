import ClassLang.Typed.Facts
import ClassLang.Proofs.Typing

/-!
The sites of a tree that checking has to say something about: its value expressions, the ranges of
its loops, and the names that declare its variables. A checked tree has the sites of the tree that
it was made from, and the facts about it tell something about each of them.
-/

namespace ClassLang

namespace Expr

mutual

/-- The value expressions inside an expression, from left to right. What is called and what is
selected are none. -/
def inner : Expr → List Expr
  | .name _ => []
  | .literal .. => []
  | .unary _ _ x => x :: x.inner
  | .binary _ x y => (x :: x.inner) ++ (y :: y.inner)
  | .call fn args => fn.inner ++ valuesOf args
  | .select x _ => x :: x.inner
  | .init _ elems => elemValues elems
  | .paren _ x => x :: x.inner

/-- The value expressions of a list. -/
def valuesOf : List Expr → List Expr
  | [] => []
  | x :: rest => (x :: x.inner) ++ valuesOf rest

/-- The value expressions of the elements of an initializer. -/
def elemValues : List (Ident × Expr) → List Expr
  | [] => []
  | (_, x) :: rest => (x :: x.inner) ++ elemValues rest

end

end Expr

/-- A place of a syntax tree that checking has to say something about. -/
inductive Site where
  /-- An expression that stands for a value. -/
  | value (e : Expr)
  /-- The bounds of a counting loop. -/
  | range (r : Range)
  /-- A name that declares a variable. -/
  | binder (name : Ident)

/-- The sites of a value expression. -/
def Expr.sites (e : Expr) : List Site := (e :: e.inner).map .value

mutual

/-- The sites of a statement. -/
def Stmt.sites : Stmt → List Site
  | .empty _ => []
  | .expr x => x.sites
  | .bind _ name _ value => .binder name :: value.sites
  | .assign lhs rhs => lhs.sites ++ rhs.sites
  | .block body => body.sites
  | .ifElse _ cond body other => cond.sites ++ body.sites ++ Stmt.otherSites other
  | .whileLoop _ cond body => cond.sites ++ body.sites
  | .forLoop _ var range body =>
    .binder var :: .range range :: (range.low.sites ++ range.high.sites ++ body.sites)
  | .ret _ none => []
  | .ret _ (some x) => x.sites

/-- The sites of an alternative, if there is one. -/
def Stmt.otherSites : Option Stmt → List Site
  | none => []
  | some s => s.sites

/-- The sites of a block. -/
def Block.sites : Block → List Site
  | .mk _ stmts _ => Stmt.sitesOf stmts

/-- The sites of several statements. -/
def Stmt.sitesOf : List Stmt → List Site
  | [] => []
  | s :: rest => s.sites ++ Stmt.sitesOf rest

end

namespace FuncDecl

/-- The parameters of a function. -/
def paramSites (d : FuncDecl) : List Site := d.params.map fun p => .binder p.name

/-- The sites of a function: its receiver, its parameters, and those of its body. -/
def sites (d : FuncDecl) : List Site :=
  d.recv.toList.map .binder ++ d.paramSites ++ (d.body.map Block.sites).getD []

end FuncDecl

/-- The sites of a declaration. A method that a bound asks for has parameters only. -/
def Decl.sites : Decl → List Site
  | .cls d => d.methods.flatMap FuncDecl.sites
  | .bound d => d.methods.flatMap FuncDecl.paramSites
  | .func d => d.sites
  | .const d => d.value.sites

/-- The sites of a unit, in source order. -/
def File.sites (f : File) : List Site := f.decls.flatMap Decl.sites

namespace Typed

namespace Expr

mutual

/-- The checked expressions inside a checked expression, from left to right. -/
def inner : Expr → List Expr
  | .var .. => []
  | .const .. => []
  | .literal .. => []
  | .unary _ _ x _ _ => x :: x.inner
  | .binary _ x y _ _ => (x :: x.inner) ++ (y :: y.inner)
  | .call _ _ _ _ args => valuesOf args
  | .invoke x _ _ _ _ args => (x :: x.inner) ++ valuesOf args
  | .field x _ _ _ => x :: x.inner
  | .init _ _ _ _ elems => elemValues elems
  | .paren _ x => x :: x.inner

/-- The checked expressions of a list. -/
def valuesOf : List Expr → List Expr
  | [] => []
  | x :: rest => (x :: x.inner) ++ valuesOf rest

/-- The checked expressions of the elements of an initializer. -/
def elemValues : List (Ident × Expr) → List Expr
  | [] => []
  | (_, x) :: rest => (x :: x.inner) ++ elemValues rest

end

end Expr

/-- A site of a checked tree. -/
inductive Site where
  | value (x : Expr)
  | range (start : Pos) (low high : Expr)
  | binder (v : Var)

/-- The site that a site of a checked tree was made from. -/
def Site.erase : Site → ClassLang.Site
  | .value x => .value x.erase
  | .range start low high => .range ⟨start, low.erase, high.erase⟩
  | .binder v => .binder ⟨v.pos, v.name⟩

/-- The sites of a checked expression. -/
def Expr.sites (x : Expr) : List Site := (x :: x.inner).map .value

mutual

/-- The sites of a checked statement. -/
def Stmt.sites : Stmt → List Site
  | .empty _ => []
  | .expr x => x.sites
  | .bind _ v _ value => .binder v :: value.sites
  | .assign lhs rhs => lhs.sites ++ rhs.sites
  | .block body => body.sites
  | .ifElse cond body none => cond.sites ++ body.sites
  | .ifElse cond body (some other) => cond.sites ++ body.sites ++ other.sites
  | .whileLoop cond body => cond.sites ++ body.sites
  | .forLoop _ v start low high body =>
    .binder v :: .range start low high :: (low.sites ++ high.sites ++ body.sites)
  | .ret _ none => []
  | .ret _ (some x) => x.sites

/-- The sites of a checked block. -/
def Block.sites : Block → List Site
  | .mk stmts => Stmt.sitesOf stmts

/-- The sites of several checked statements. -/
def Stmt.sitesOf : List Stmt → List Site
  | [] => []
  | s :: rest => s.sites ++ Stmt.sitesOf rest

end

namespace Func

/-- The parameters of a checked function. -/
def paramSites (g : Func) : List Site := g.header.params.map fun e => .binder e.1

/-- The sites of a checked function. -/
def sites (g : Func) : List Site :=
  g.header.recv.toList.map .binder ++ g.paramSites ++ (g.body.map Block.sites).getD []

end Func

/-- The sites of a checked declaration. -/
def Decl.sites : Decl → List Site
  | .cls d => d.methods.flatMap Func.sites
  | .bound d => d.methods.flatMap Func.paramSites
  | .func d => d.sites
  | .const d => d.expr.sites

/-- The sites of a checked unit. -/
def File.sites (u : File) : List Site := u.decls.flatMap Decl.sites

/-! Checked sites and the sites they were made from -/

namespace Expr

mutual

theorem erase_inner : (x : Expr) → x.inner.map erase = x.erase.inner
  | .var .. => rfl
  | .const .. => rfl
  | .literal .. => rfl
  | .unary _ _ x _ _ => by simp [inner, erase, ClassLang.Expr.inner, erase_inner x]
  | .binary _ x y _ _ => by
    simp [inner, erase, ClassLang.Expr.inner, erase_inner x, erase_inner y]
  | .call _ _ _ _ args => by
    simp [inner, erase, ClassLang.Expr.inner, erase_valuesOf args]
  | .invoke x _ _ _ _ args => by
    simp [inner, erase, ClassLang.Expr.inner, erase_inner x, erase_valuesOf args]
  | .field x _ _ _ => by simp [inner, erase, ClassLang.Expr.inner, erase_inner x]
  | .init _ _ _ _ elems => by simp [inner, erase, ClassLang.Expr.inner, erase_elemValues elems]
  | .paren _ x => by simp [inner, erase, ClassLang.Expr.inner, erase_inner x]

theorem erase_valuesOf : (xs : List Expr) →
    (valuesOf xs).map erase = ClassLang.Expr.valuesOf (eraseAll xs)
  | [] => rfl
  | x :: rest => by
    simp [valuesOf, eraseAll, ClassLang.Expr.valuesOf, erase_inner x, erase_valuesOf rest]

theorem erase_elemValues : (elems : List (Ident × Expr)) →
    (elemValues elems).map erase = ClassLang.Expr.elemValues (eraseElems elems)
  | [] => rfl
  | (key, x) :: rest => by
    simp [elemValues, eraseElems, ClassLang.Expr.elemValues, erase_inner x, erase_elemValues rest]

end

theorem erase_sites (x : Expr) : x.sites.map Site.erase = x.erase.sites := by
  rw [sites, ClassLang.Expr.sites, ← erase_inner]
  simp [Site.erase, Function.comp_def]

end Expr

/-! Facts about sites -/

/-- What a call was found to be, and what an initializer gives values to, is among the facts. -/
def Expr.Resolved (facts : List Fact) : Expr → Prop
  | .call fn sym targs sig args =>
    Fact.call (Expr.call fn sym targs sig args).erase.text .direct fn.text none targs sig ∈ facts ∧
      sig.params.length = args.length
  | .invoke x sel kind m sig args =>
    Fact.call (Expr.invoke x sel kind m sig args).erase.text kind m.fullName (some x.ty) [] sig
      ∈ facts ∧ sig.params.length = args.length
  | .init cls _ ty _ _ => ∃ values, Fact.init cls.text ty values ∈ facts
  | _ => True

/-- The facts tell all that checking has to say about a site: an expression has a type, a call its
target, an initializer its class, and a name its variable. -/
def Site.Annotated (facts : List Fact) : Site → Prop
  | .value x => x.typing ∈ facts ∧ x.ty.isInvalid = false ∧ x.ty.isMissing = false ∧
    x.Resolved facts
  | .range start low high =>
    Fact.expr start (Range.mk start low.erase high.erase).text .int .value none ∈ facts
  | .binder v => Fact.define ⟨v.pos, v.name⟩ (.var v) ∈ facts

/-- All facts about a site are among `facts`. -/
def Site.Recorded (facts : List Fact) : Site → Prop
  | .value x => x.facts ⊆ facts
  | .range start low high =>
    Fact.expr start (Range.mk start low.erase high.erase).text .int .value none ∈ facts
  | .binder v => Fact.define ⟨v.pos, v.name⟩ (.var v) ∈ facts

theorem Site.Recorded.mono {facts facts' : List Fact} {n : Site} (h : n.Recorded facts)
    (hsub : facts ⊆ facts') : n.Recorded facts' := by
  cases n with
  | value x => exact List.Subset.trans h hsub
  | range start low high => exact hsub h
  | binder v => exact hsub h

namespace Expr

theorem typing_mem (x : Expr) : x.typing ∈ x.facts := by
  cases x <;> simp [facts]

mutual

theorem facts_inner : (x : Expr) → ∀ y ∈ x.inner, y.facts ⊆ x.facts
  | .var .. => by simp [inner]
  | .const .. => by simp [inner]
  | .literal .. => by simp [inner]
  | .unary _ _ x _ _ => by
    refine List.forall_mem_cons.2 ⟨?_, fun y hy => List.Subset.trans (facts_inner x y hy) ?_⟩ <;>
      exact fun _ h => by simp [facts, h]
  | .binary _ x y _ _ => by
    intro z hz
    rcases List.mem_append.1 hz with hz | hz <;> rcases List.mem_cons.1 hz with rfl | hz
    · exact fun _ h => by simp [facts, h]
    · exact List.Subset.trans (facts_inner x z hz) fun _ h => by simp [facts, h]
    · exact fun _ h => by simp [facts, h]
    · exact List.Subset.trans (facts_inner y z hz) fun _ h => by simp [facts, h]
  | .call _ _ _ _ args => fun y hy =>
    List.Subset.trans (facts_valuesOf args y hy) fun _ h => by simp [facts, h]
  | .invoke x _ _ _ _ args => by
    intro y hy
    rcases List.mem_append.1 hy with hy | hy
    · rcases List.mem_cons.1 hy with rfl | hy
      · exact fun _ h => by simp [facts, h]
      · exact List.Subset.trans (facts_inner x y hy) fun _ h => by simp [facts, h]
    · exact List.Subset.trans (facts_valuesOf args y hy) fun _ h => by simp [facts, h]
  | .field x _ _ _ => by
    refine List.forall_mem_cons.2 ⟨?_, fun y hy => List.Subset.trans (facts_inner x y hy) ?_⟩ <;>
      exact fun _ h => by simp [facts, h]
  | .init _ _ _ fields elems => fun y hy =>
    List.Subset.trans (facts_elemValues fields elems y hy) fun _ h => by simp [facts, h]
  | .paren _ x => by
    refine List.forall_mem_cons.2 ⟨?_, fun y hy => List.Subset.trans (facts_inner x y hy) ?_⟩ <;>
      exact fun _ h => by simp [facts, h]

theorem facts_valuesOf : (xs : List Expr) → ∀ y ∈ valuesOf xs, y.facts ⊆ factsOf xs
  | [] => by simp [valuesOf]
  | x :: rest => by
    intro y hy
    rcases List.mem_append.1 hy with hy | hy
    · rcases List.mem_cons.1 hy with rfl | hy
      · exact fun _ h => by simp [factsOf, h]
      · exact List.Subset.trans (facts_inner x y hy) fun _ h => by simp [factsOf, h]
    · exact List.Subset.trans (facts_valuesOf rest y hy) fun _ h => by simp [factsOf, h]

theorem facts_elemValues (fields : List Field) : (elems : List (Ident × Expr)) →
    ∀ y ∈ elemValues elems, y.facts ⊆ elemFacts fields elems
  | [] => by simp [elemValues]
  | (_, x) :: rest => by
    intro y hy
    rcases List.mem_append.1 hy with hy | hy
    · rcases List.mem_cons.1 hy with rfl | hy
      · exact fun _ h => by simp [elemFacts, h]
      · exact List.Subset.trans (facts_inner x y hy) fun _ h => by simp [elemFacts, h]
    · exact List.Subset.trans (facts_elemValues fields rest y hy) fun _ h => by simp [elemFacts, h]

end

theorem sites_recorded (x : Expr) : ∀ n ∈ x.sites, n.Recorded x.facts := by
  intro n hn
  obtain ⟨y, hy, rfl⟩ := List.mem_map.1 hn
  rcases List.mem_cons.1 hy with rfl | hy
  · exact List.Subset.refl _
  · exact facts_inner x y hy

end Expr

/-- What is recorded in a part of the facts is recorded in all of them. -/
theorem recorded_of_sublist {facts facts' : List Fact} {ns : List Site}
    (h : ∀ n ∈ ns, n.Recorded facts) (hsub : facts ⊆ facts') : ∀ n ∈ ns, n.Recorded facts' :=
  fun n hn => (h n hn).mono hsub

mutual

theorem Stmt.sites_recorded : (s : Stmt) → ∀ n ∈ s.sites, n.Recorded s.facts
  | .empty _ => by simp [Stmt.sites]
  | .expr x => x.sites_recorded
  | .bind _ v type value => by
    refine List.forall_mem_cons.2 ⟨?_, recorded_of_sublist value.sites_recorded ?_⟩
    · simp [Site.Recorded, Stmt.facts]
    · simp [Stmt.facts]
  | .assign lhs rhs => by
    refine List.forall_mem_append.2 ⟨recorded_of_sublist lhs.sites_recorded ?_,
      recorded_of_sublist rhs.sites_recorded ?_⟩ <;> simp [Stmt.facts]
  | .block body => Block.sites_recorded body
  | .ifElse cond body none => by
    refine List.forall_mem_append.2 ⟨recorded_of_sublist cond.sites_recorded ?_,
      recorded_of_sublist (Block.sites_recorded body) ?_⟩ <;> simp [Stmt.facts]
  | .ifElse cond body (some other) => by
    refine List.forall_mem_append.2 ⟨List.forall_mem_append.2
      ⟨recorded_of_sublist cond.sites_recorded ?_,
        recorded_of_sublist (Block.sites_recorded body) ?_⟩,
      recorded_of_sublist (Stmt.sites_recorded other) ?_⟩ <;> simp [Stmt.facts]
  | .whileLoop cond body => by
    refine List.forall_mem_append.2 ⟨recorded_of_sublist cond.sites_recorded ?_,
      recorded_of_sublist (Block.sites_recorded body) ?_⟩ <;> simp [Stmt.facts]
  | .forLoop _ v start low high body => by
    refine List.forall_mem_cons.2 ⟨?_, List.forall_mem_cons.2 ⟨?_, List.forall_mem_append.2
      ⟨List.forall_mem_append.2 ⟨recorded_of_sublist low.sites_recorded ?_,
        recorded_of_sublist high.sites_recorded ?_⟩,
      recorded_of_sublist (Block.sites_recorded body) ?_⟩⟩⟩
    · simp [Site.Recorded, Stmt.facts]
    · simp [Site.Recorded, Stmt.facts]
    all_goals exact fun _ h => by simp [Stmt.facts, h]
  | .ret _ none => by simp [Stmt.sites]
  | .ret _ (some x) => x.sites_recorded

theorem Block.sites_recorded : (b : Block) → ∀ n ∈ b.sites, n.Recorded b.facts
  | .mk stmts => Stmt.sitesOf_recorded stmts

theorem Stmt.sitesOf_recorded : (list : List Stmt) →
    ∀ n ∈ Stmt.sitesOf list, n.Recorded (Stmt.factsOf list)
  | [] => by simp [Stmt.sitesOf]
  | s :: rest => by
    refine List.forall_mem_append.2 ⟨recorded_of_sublist (Stmt.sites_recorded s) ?_,
      recorded_of_sublist (Stmt.sitesOf_recorded rest) ?_⟩ <;> simp [Stmt.factsOf]

end

theorem Func.paramSites_recorded (g : Func) : ∀ n ∈ g.paramSites, n.Recorded g.facts := by
  intro n hn
  obtain ⟨e, he, rfl⟩ := List.mem_map.1 hn
  have hparams : Fact.define ⟨e.1.pos, e.1.name⟩ (.var e.1) ∈
      g.header.params.flatMap fun p => .define ⟨p.1.pos, p.1.name⟩ (.var p.1) :: p.2.facts :=
    List.mem_flatMap.2 ⟨e, he, List.mem_cons_self⟩
  simp only [Site.Recorded, Func.facts, List.mem_append]
  exact .inl (.inl (.inr hparams))

theorem Func.sites_recorded (g : Func) : ∀ n ∈ g.sites, n.Recorded g.facts := by
  refine List.forall_mem_append.2 ⟨List.forall_mem_append.2 ⟨?_, g.paramSites_recorded⟩, ?_⟩
  · intro n hn
    obtain ⟨v, hv, rfl⟩ := List.mem_map.1 hn
    simp only [Site.Recorded, Func.facts, List.mem_append]
    exact .inl (.inl (.inl (.inl (.inl (List.mem_map_of_mem hv)))))
  · cases hbody : g.body with
    | none => simp
    | some b =>
        exact recorded_of_sublist b.sites_recorded fun _ h => by simp [Func.facts, hbody, h]

theorem recorded_flatMap {α : Type} {list : List α} {sites : α → List Site}
    {facts : α → List Fact} (h : ∀ a ∈ list, ∀ n ∈ sites a, n.Recorded (facts a)) :
    ∀ n ∈ list.flatMap sites, n.Recorded (list.flatMap facts) := by
  intro n hn
  obtain ⟨a, ha, hn⟩ := List.mem_flatMap.1 hn
  exact (h a ha n hn).mono fun x hx => List.mem_flatMap.2 ⟨a, ha, hx⟩

theorem Decl.sites_recorded (d : Decl) : ∀ n ∈ d.sites, n.Recorded d.facts := by
  cases d with
  | cls d =>
      exact recorded_of_sublist (recorded_flatMap fun g _ => g.sites_recorded)
        (List.subset_append_right _ _)
  | bound d =>
      refine recorded_of_sublist (recorded_flatMap fun g _ => g.paramSites_recorded) ?_
      simp [Decl.facts]
  | func g => exact g.sites_recorded
  | const d =>
      refine recorded_of_sublist d.expr.sites_recorded ?_
      simp [Decl.facts]

/-- The facts about a unit tell everything about its sites. -/
theorem File.sites_recorded (u : File) : ∀ n ∈ u.sites, n.Recorded u.facts :=
  recorded_flatMap fun d _ => d.sites_recorded

/-! Sites that are well typed -/

namespace Expr

theorem mem_valuesOf {y : Expr} {xs : List Expr} (h : y ∈ valuesOf xs) :
    ∃ x ∈ xs, y = x ∨ y ∈ x.inner := by
  induction xs with
  | nil => simp [valuesOf] at h
  | cons x rest ih =>
      rcases List.mem_append.1 h with h | h
      · exact ⟨x, List.mem_cons_self, List.mem_cons.1 h⟩
      · obtain ⟨z, hz, hy⟩ := ih h
        exact ⟨z, List.mem_cons_of_mem _ hz, hy⟩

theorem mem_elemValues {y : Expr} {elems : List (Ident × Expr)} (h : y ∈ elemValues elems) :
    ∃ e ∈ elems, y = e.2 ∨ y ∈ e.2.inner := by
  induction elems with
  | nil => simp [elemValues] at h
  | cons e rest ih =>
      rcases List.mem_append.1 h with h | h
      · exact ⟨e, List.mem_cons_self, List.mem_cons.1 h⟩
      · obtain ⟨z, hz, hy⟩ := ih h
        exact ⟨z, List.mem_cons_of_mem _ hz, hy⟩

/-- What is inside a well typed expression is well typed. -/
theorem Ok.inner {Γ : Context} {vars : List Var} {x : Expr} (h : x.Ok Γ vars) :
    ∀ y ∈ x.inner, y.Ok Γ vars := by
  have hcons {x y : Expr} (hx : x.Ok Γ vars) (ih : ∀ y ∈ x.inner, y.Ok Γ vars)
      (hy : y = x ∨ y ∈ x.inner) : y.Ok Γ vars := by
    rcases hy with rfl | hy
    · exact hx
    · exact ih y hy
  induction h with
  | var | const | literal => simp [Expr.inner]
  | unary hx _ _ _ ih | field hx _ _ ih | paren hx ih =>
      exact fun y hy => hcons hx ih (List.mem_cons.1 hy)
  | binary hx hy _ _ _ _ _ ihx ihy =>
      intro z hz
      rcases List.mem_append.1 hz with hz | hz
      · exact hcons hx ihx (List.mem_cons.1 hz)
      · exact hcons hy ihy (List.mem_cons.1 hz)
  | call _ _ _ _ hargs _ ih =>
      intro y hy
      obtain ⟨a, ha, hy⟩ := mem_valuesOf hy
      exact hcons (hargs a ha) (ih a ha) hy
  | invoke hx _ _ _ hargs _ ihx ih | invokeBound hx _ _ _ _ hargs _ ihx ih =>
      intro y hy
      rcases List.mem_append.1 hy with hy | hy
      · exact hcons hx ihx (List.mem_cons.1 hy)
      · obtain ⟨a, ha, hy⟩ := mem_valuesOf hy
        exact hcons (hargs a ha) (ih a ha) hy
  | init _ _ _ hargs _ ih =>
      intro y hy
      obtain ⟨e, he, hy⟩ := mem_elemValues hy
      exact hcons (hargs e he) (ih e he) hy

/-- A well typed call or initializer is resolved by its own facts. -/
theorem Ok.resolved {Γ : Context} {vars : List Var} {x : Expr} (h : x.Ok Γ vars) :
    x.Resolved x.facts := by
  cases h with
  | call _ _ _ count => exact ⟨by simp [facts], by rw [Signature.length_subst, count]⟩
  | invoke _ _ _ count => exact ⟨by simp [facts], by rw [Signature.length_subst, count]⟩
  | invokeBound _ _ _ _ count => exact ⟨by simp [facts], count.symm⟩
  | init =>
      rw [facts]
      exact ⟨_, List.mem_append_left _ (.tail _ (.head _))⟩
  | _ => trivial

theorem Resolved.mono {facts facts' : List Fact} {x : Expr} (h : x.Resolved facts)
    (hsub : facts ⊆ facts') : x.Resolved facts' := by
  cases x with
  | call | invoke => exact ⟨hsub h.1, h.2⟩
  | init => exact ⟨h.choose, hsub h.choose_spec⟩
  | _ => trivial

end Expr

/-- An expression of a site is well typed against the table and the functions of `Γ`. -/
def Site.Ok (Γ : Context) (n : Site) : Prop :=
  ∀ x, n = .value x → ∃ Δ vars, x.Ok { Γ with tparams := Δ } vars

theorem Site.ok_binder {Γ : Context} (v : Var) : (Site.binder v).Ok Γ := fun _ h => by cases h

theorem Site.ok_range {Γ : Context} (start : Pos) (low high : Expr) :
    (Site.range start low high).Ok Γ := fun _ h => by cases h

theorem Expr.Ok.sites_ok {Γ : Context} {Δ : List TypeParam} {vars : List Var} {x : Expr}
    (h : x.Ok { Γ with tparams := Δ } vars) : ∀ n ∈ x.sites, n.Ok Γ := by
  rintro n hn y rfl
  obtain ⟨z, hz, heq⟩ := List.mem_map.1 hn
  obtain rfl := Site.value.inj heq
  rcases List.mem_cons.1 hz with rfl | hz
  · exact ⟨Δ, vars, h⟩
  · exact ⟨Δ, vars, h.inner z hz⟩

mutual

theorem Stmt.Ok.sites_ok {Γ : Context} {Δ : List TypeParam} {result : Ty} {vars vars' : List Var}
    {s : Stmt} : Stmt.Ok { Γ with tparams := Δ } result vars s vars' → ∀ n ∈ s.sites, n.Ok Γ
  | .empty => by simp [Stmt.sites]
  | .expr ok _ => ok.sites_ok
  | .bind ok _ _ _ => List.forall_mem_cons.2 ⟨Site.ok_binder _, ok.sites_ok⟩
  | .assign left _ right _ => List.forall_mem_append.2 ⟨left.sites_ok, right.sites_ok⟩
  | .block body => body.sites_ok
  | .ifThen ok _ body => List.forall_mem_append.2 ⟨ok.sites_ok, body.sites_ok⟩
  | .ifElse ok _ body alternative =>
    List.forall_mem_append.2 ⟨List.forall_mem_append.2 ⟨ok.sites_ok, body.sites_ok⟩,
      alternative.sites_ok⟩
  | .whileLoop ok _ body => List.forall_mem_append.2 ⟨ok.sites_ok, body.sites_ok⟩
  | .forLoop low _ high _ _ body =>
    List.forall_mem_cons.2 ⟨Site.ok_binder _, List.forall_mem_cons.2
      ⟨Site.ok_range _ _ _, List.forall_mem_append.2
        ⟨List.forall_mem_append.2 ⟨low.sites_ok, high.sites_ok⟩, body.sites_ok⟩⟩⟩
  | .ret _ => by simp [Stmt.sites]
  | .retValue ok _ _ => ok.sites_ok

theorem StmtsOk.sites_ok {Γ : Context} {Δ : List TypeParam} {result : Ty}
    {vars vars' : List Var} {list : List Stmt} :
    StmtsOk { Γ with tparams := Δ } result vars list vars' → ∀ n ∈ Stmt.sitesOf list, n.Ok Γ
  | .nil => by simp [Stmt.sitesOf]
  | .cons first rest => List.forall_mem_append.2 ⟨first.sites_ok, rest.sites_ok⟩

end

theorem Func.Ok.sites_ok {Γ : Context} {Δ : List TypeParam} {g : Func}
    (h : g.Ok { Γ with tparams := Δ }) : ∀ n ∈ g.sites, n.Ok Γ := by
  refine List.forall_mem_append.2 ⟨List.forall_mem_append.2 ⟨?_, ?_⟩, ?_⟩
  · exact List.forall_mem_map.2 fun v _ => Site.ok_binder v
  · exact List.forall_mem_map.2 fun e _ => Site.ok_binder e.1
  · cases hbody : g.body with
    | none => simp
    | some b =>
        obtain ⟨stmts⟩ := b
        obtain ⟨vars', hok⟩ := h.body _ hbody
        exact hok.sites_ok

/-- A well typed site is annotated where everything about it is recorded. -/
theorem Site.Recorded.annotated {Γ : Context} (hΓ : ∀ Δ, ({ Γ with tparams := Δ } : Context).Sound)
    {facts : List Fact} {n : Site} (h : n.Recorded facts) (hok : n.Ok Γ) : n.Annotated facts := by
  cases n with
  | value x =>
      obtain ⟨Δ, vars, hx⟩ := hok x rfl
      have hscoped := hx.scoped (hΓ Δ)
      exact ⟨h x.typing_mem, hscoped.isInvalid, hscoped.isMissing, hx.resolved.mono h⟩
  | range => exact h
  | binder => exact h

end Typed

end ClassLang

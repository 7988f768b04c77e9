import ClassLang.Check.Stmt
import ClassLang.Proofs.Tree.Shape
import ClassLang.Proofs.Typing.Sites

/-!
A checked statement stands for the statement that it was made from: it has the same form, and its
expressions erase to the expressions there. So the two return on the same paths, declare the same
variables, have the same sites, and are made of the same lists of statements.
-/

namespace ClassLang

/-- The sites of a checked tree are those of the tree it was made from. -/
def Check.Mirrors (ns : List Typed.Site) (ms : List Site) : Prop := ns.map (·.erase) = ms

namespace Check.Mirrors

variable {ns ns' : List Typed.Site} {ms ms' : List Site}

theorem append (h : Mirrors ns ms) (h' : Mirrors ns' ms') : Mirrors (ns ++ ns') (ms ++ ms') := by
  rw [Mirrors, List.map_append, h, h']

theorem cons {n : Typed.Site} (h : Mirrors ns ms) : Mirrors (n :: ns) (n.erase :: ms) := by
  rw [Mirrors, List.map_cons, h]

theorem expr {x : Typed.Expr} {e : Expr} (h : x.erase = e) : Mirrors x.sites e.sites := by
  rw [Mirrors, ← h]
  exact x.erase_sites

/-- Lists whose members are alike have the same sites. -/
theorem flatMap {γ δ : Type} {g : γ → List Typed.Site} {f : δ → List Site} {l : List γ}
    {l' : List δ} (h : List.Forall₂ (fun d c => Mirrors (g c) (f d)) l' l) :
    Mirrors (l.flatMap g) (l'.flatMap f) := by
  induction h with
  | nil => rfl
  | cons hfirst _ ih => exact hfirst.append ih

end Check.Mirrors

mutual

/-- The lists of statements inside a statement, each before those inside it. -/
def Stmt.lists : Stmt → List (List Stmt)
  | .block body => body.lists
  | .ifElse _ _ body other => body.lists ++ Stmt.otherLists other
  | .whileLoop _ _ body => body.lists
  | .forLoop _ _ _ body => body.lists
  | _ => []

@[inherit_doc Stmt.lists]
def Stmt.otherLists : Option Stmt → List (List Stmt)
  | none => []
  | some s => s.lists

/-- The list of statements of a block and the lists inside it. -/
def Block.lists : Block → List (List Stmt)
  | .mk _ stmts _ => stmts :: Stmt.listsOf stmts

@[inherit_doc Stmt.lists]
def Stmt.listsOf : List Stmt → List (List Stmt)
  | [] => []
  | s :: rest => s.lists ++ Stmt.listsOf rest

end

namespace Typed

mutual

/-- The lists of statements inside a checked statement, each before those inside it. -/
def Stmt.lists : Stmt → List (List Stmt)
  | .block body => body.lists
  | .ifElse _ body none => body.lists
  | .ifElse _ body (some other) => body.lists ++ other.lists
  | .whileLoop _ body => body.lists
  | .forLoop _ _ _ _ _ body => body.lists
  | _ => []

/-- The list of statements of a checked block and the lists inside it. -/
def Block.lists : Block → List (List Stmt)
  | .mk stmts => stmts :: Stmt.listsOf stmts

@[inherit_doc Stmt.lists]
def Stmt.listsOf : List Stmt → List (List Stmt)
  | [] => []
  | s :: rest => s.lists ++ Stmt.listsOf rest

end

mutual

/-- A checked statement stands for a statement. -/
inductive Stmt.StandsFor : Stmt → ClassLang.Stmt → Prop
  | empty {pos : Pos} : Stmt.StandsFor (.empty pos) (.empty pos)
  | expr {x : Expr} : Stmt.StandsFor (.expr x) (.expr x.erase)
  | bind {pos : Pos} {v : Var} {type : TypeExpr} {term : TypeTerm} {x : Expr} :
      Stmt.StandsFor (.bind pos v term x) (.bind pos ⟨v.pos, v.name⟩ type x.erase)
  | assign {x y : Expr} : Stmt.StandsFor (.assign x y) (.assign x.erase y.erase)
  | block {b : Block} {b' : ClassLang.Block} (body : b.StandsFor b') :
      Stmt.StandsFor (.block b) (.block b')
  | ifThen {pos : Pos} {cond : Expr} {b : Block} {b' : ClassLang.Block} (body : b.StandsFor b') :
      Stmt.StandsFor (.ifElse cond b none) (.ifElse pos cond.erase b' none)
  | ifElse {pos : Pos} {cond : Expr} {b : Block} {b' : ClassLang.Block} {o : Stmt}
      {o' : ClassLang.Stmt} (body : b.StandsFor b') (other : o.StandsFor o') :
      Stmt.StandsFor (.ifElse cond b (some o)) (.ifElse pos cond.erase b' (some o'))
  | whileLoop {pos : Pos} {cond : Expr} {b : Block} {b' : ClassLang.Block}
      (body : b.StandsFor b') : Stmt.StandsFor (.whileLoop cond b) (.whileLoop pos cond.erase b')
  | forLoop {pos start : Pos} {v : Var} {low high : Expr} {b : Block} {b' : ClassLang.Block}
      (body : b.StandsFor b') : Stmt.StandsFor (.forLoop pos v start low high b)
        (.forLoop pos ⟨v.pos, v.name⟩ ⟨start, low.erase, high.erase⟩ b')
  | ret {pos : Pos} : Stmt.StandsFor (.ret pos none) (.ret pos none)
  | retValue {pos : Pos} {x : Expr} : Stmt.StandsFor (.ret pos (some x)) (.ret pos (some x.erase))

/-- A checked block stands for a block. -/
inductive Block.StandsFor : Block → ClassLang.Block → Prop
  | mk {ts : List Stmt} {xs : List ClassLang.Stmt} {pos close : Pos} (stmts : StandFor ts xs) :
      Block.StandsFor (.mk ts) (.mk pos xs close)

/-- Checked statements stand for statements, one for each. -/
inductive StandFor : List Stmt → List ClassLang.Stmt → Prop
  | nil : StandFor [] []
  | cons {t : Stmt} {x : ClassLang.Stmt} {ts : List Stmt} {xs : List ClassLang.Stmt}
      (first : t.StandsFor x) (rest : StandFor ts xs) : StandFor (t :: ts) (x :: xs)

end

mutual

theorem Stmt.StandsFor.returns : {t : Stmt} → {x : ClassLang.Stmt} → t.StandsFor x →
    t.returns = x.mustReturn
  | _, _, .empty | _, _, .expr | _, _, .bind | _, _, .assign | _, _, .ret | _, _, .retValue => by
    simp [Stmt.returns, ClassLang.Stmt.mustReturn]
  | _, _, .block body => by
    simp [Stmt.returns, ClassLang.Stmt.mustReturn, body.returns]
  | _, _, .ifThen _ => by
    simp [Stmt.returns, ClassLang.Stmt.mustReturn, ClassLang.Stmt.mustReturnOther]
  | _, _, .ifElse body other => by
    simp [Stmt.returns, ClassLang.Stmt.mustReturn, ClassLang.Stmt.mustReturnOther, body.returns,
      other.returns]
  | _, _, .whileLoop _ | _, _, .forLoop _ => by
    simp [Stmt.returns, ClassLang.Stmt.mustReturn]

theorem Block.StandsFor.returns : {b : Block} → {b' : ClassLang.Block} → b.StandsFor b' →
    b.returns = b'.mustReturn
  | _, _, .mk stmts => by
    simp [Block.returns, ClassLang.Block.mustReturn, stmts.returns]

theorem StandFor.returns : {ts : List Stmt} → {xs : List ClassLang.Stmt} → StandFor ts xs →
    returnsAny ts = ClassLang.Stmt.mustReturnAny xs
  | _, _, .nil => by simp [returnsAny, ClassLang.Stmt.mustReturnAny]
  | _, _, .cons first rest => by
    simp [returnsAny, ClassLang.Stmt.mustReturnAny, first.returns, rest.returns]

end

mutual

theorem Stmt.StandsFor.binders : {t : Stmt} → {x : ClassLang.Stmt} → t.StandsFor x →
    t.binders = x.binders
  | _, _, .empty | _, _, .expr | _, _, .bind | _, _, .assign | _, _, .ret | _, _, .retValue => by
    simp [Stmt.binders, ClassLang.Stmt.binders]
  | _, _, .block body | _, _, .whileLoop body | _, _, .forLoop body => by
    simp [Stmt.binders, ClassLang.Stmt.binders, body.binders]
  | _, _, .ifThen body => by
    simp [Stmt.binders, ClassLang.Stmt.binders, ClassLang.Stmt.otherBinders, body.binders]
  | _, _, .ifElse body other => by
    simp [Stmt.binders, ClassLang.Stmt.binders, ClassLang.Stmt.otherBinders, body.binders,
      other.binders]

theorem Block.StandsFor.binders : {b : Block} → {b' : ClassLang.Block} → b.StandsFor b' →
    b.binders = b'.binders
  | _, _, .mk stmts => by
    simp [Block.binders, ClassLang.Block.binders, stmts.binders]

theorem StandFor.binders : {ts : List Stmt} → {xs : List ClassLang.Stmt} → StandFor ts xs →
    bindersAll ts = ClassLang.Stmt.allBinders xs
  | _, _, .nil => by simp [bindersAll, ClassLang.Stmt.allBinders]
  | _, _, .cons first rest => by
    simp [bindersAll, ClassLang.Stmt.allBinders, first.binders, rest.binders]

end

mutual

theorem Stmt.StandsFor.lists : {t : Stmt} → {x : ClassLang.Stmt} → t.StandsFor x →
    List.Forall₂ StandFor t.lists x.lists
  | _, _, .empty | _, _, .expr | _, _, .bind | _, _, .assign | _, _, .ret | _, _, .retValue => by
    simp [Stmt.lists, ClassLang.Stmt.lists]
  | _, _, .block body | _, _, .whileLoop body | _, _, .forLoop body => by
    simpa [Stmt.lists, ClassLang.Stmt.lists] using body.lists
  | _, _, .ifThen body => by
    simpa [Stmt.lists, ClassLang.Stmt.lists, ClassLang.Stmt.otherLists] using body.lists
  | _, _, .ifElse body other => by
    simpa [Stmt.lists, ClassLang.Stmt.lists, ClassLang.Stmt.otherLists] using
      List.rel_append body.lists other.lists

theorem Block.StandsFor.lists : {b : Block} → {b' : ClassLang.Block} → b.StandsFor b' →
    List.Forall₂ StandFor b.lists b'.lists
  | _, _, .mk stmts => by
    simpa [Block.lists, ClassLang.Block.lists] using ⟨stmts, stmts.lists⟩

theorem StandFor.lists : {ts : List Stmt} → {xs : List ClassLang.Stmt} → StandFor ts xs →
    List.Forall₂ StandFor (Stmt.listsOf ts) (ClassLang.Stmt.listsOf xs)
  | _, _, .nil => by simp [Stmt.listsOf, ClassLang.Stmt.listsOf]
  | _, _, .cons first rest => by
    simpa [Stmt.listsOf, ClassLang.Stmt.listsOf] using List.rel_append first.lists rest.lists

end

open Check (Mirrors)

mutual

theorem Stmt.StandsFor.mirrors : {t : Stmt} → {x : ClassLang.Stmt} → t.StandsFor x →
    Mirrors t.sites x.sites
  | _, _, .empty | _, _, .ret => by simp [Stmt.sites, ClassLang.Stmt.sites, Mirrors]
  | _, _, .expr | _, _, .retValue => by
    rw [Stmt.sites, ClassLang.Stmt.sites]
    exact .expr rfl
  | _, _, .bind => by
    rw [Stmt.sites, ClassLang.Stmt.sites]
    exact (Mirrors.expr rfl).cons
  | _, _, .assign => by
    rw [Stmt.sites, ClassLang.Stmt.sites]
    exact (Mirrors.expr rfl).append (.expr rfl)
  | _, _, .block body => by
    rw [Stmt.sites, ClassLang.Stmt.sites]
    exact body.mirrors
  | _, _, .ifThen body => by
    rw [Stmt.sites, ClassLang.Stmt.sites, ClassLang.Stmt.otherSites, List.append_nil]
    exact (Mirrors.expr rfl).append body.mirrors
  | _, _, .ifElse body other => by
    rw [Stmt.sites, ClassLang.Stmt.sites, ClassLang.Stmt.otherSites]
    exact ((Mirrors.expr rfl).append body.mirrors).append other.mirrors
  | _, _, .whileLoop body => by
    rw [Stmt.sites, ClassLang.Stmt.sites]
    exact (Mirrors.expr rfl).append body.mirrors
  | _, _, .forLoop body => by
    rw [Stmt.sites, ClassLang.Stmt.sites]
    exact (((Mirrors.expr rfl).append (.expr rfl)).append body.mirrors).cons.cons

theorem Block.StandsFor.mirrors : {b : Block} → {b' : ClassLang.Block} → b.StandsFor b' →
    Mirrors b.sites b'.sites
  | _, _, .mk stmts => by
    rw [Block.sites, ClassLang.Block.sites]
    exact stmts.mirrors

theorem StandFor.mirrors : {ts : List Stmt} → {xs : List ClassLang.Stmt} → StandFor ts xs →
    Mirrors (Stmt.sitesOf ts) (ClassLang.Stmt.sitesOf xs)
  | _, _, .nil => by simp [Stmt.sitesOf, ClassLang.Stmt.sitesOf, Mirrors]
  | _, _, .cons first rest => by
    rw [Stmt.sitesOf, ClassLang.Stmt.sitesOf]
    exact first.mirrors.append rest.mirrors

end

/-- The body of a checked function stands for the body of a function. -/
def Func.BodyStands (g : Func) (d : FuncDecl) : Prop := Option.Rel Block.StandsFor g.body d.body

namespace Func.BodyStands

variable {g : Func} {d : FuncDecl}

theorem isSome_eq (h : g.BodyStands d) : g.body.isSome = d.body.isSome := by
  unfold BodyStands at h
  generalize g.body = b, d.body = b' at h ⊢
  cases h <;> rfl

theorem mirrors (h : g.BodyStands d) :
    Mirrors ((g.body.map Block.sites).getD []) ((d.body.map ClassLang.Block.sites).getD []) := by
  unfold BodyStands at h
  generalize g.body = b, d.body = b' at h ⊢
  cases h with
  | none => rfl
  | some body => exact body.mirrors

end Func.BodyStands

end Typed

end ClassLang

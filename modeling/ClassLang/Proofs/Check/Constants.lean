import Mathlib
import ClassLang.Proofs.Check.Agreement
import ClassLang.Proofs.Check.Annotation
import ClassLang.Proofs.Tree.Encoded

/-!
The constants of a unit: folding them ends, none of them depends on itself, and each has the value of
its expression, in which the constants that it names have theirs.
-/

namespace ClassLang

namespace Expr

/-- The value of an expression in which the constants that a unit declares have the values that
`values` gives. -/
def evaluate (values : String → Option Constant) : Expr → Option Constant
  | .name id =>
    match values id.text, predeclared.find? id.text with
    | some c, _ => some c
    | none, some (.truth b) => some (.bool b)
    | none, _ => none
  | .literal _ kind text => Constant.ofLiteral? kind text
  | .unary _ op x => (x.evaluate values).bind (Constant.unary op)
  | .binary op x y => Constant.fold op (x.evaluate values) (y.evaluate values)
  | .paren _ x => x.evaluate values
  | _ => none

/-- Whether a name stands for a value in an expression. -/
def Mentions (e : Expr) (name : String) : Prop :=
  ∃ id, .name id ∈ e :: e.inner ∧ id.text = name

end Expr

/-- Among the constants `decls`, the expression of `d` names `d'`. -/
structure ConstDecl.Refers (decls : List ConstDecl) (d d' : ConstDecl) : Prop where
  source : d ∈ decls
  target : d' ∈ decls
  mentions : d.value.Mentions d'.name.text

namespace Check

/-! Values -/

/-- The value of an expression as it is found from the declarations of the constants that it
names. -/
inductive Denotes (decls : List ConstDecl) : Expr → Constant → Prop
  | const {id d c} (found : decls.find? (·.name.text = id.text) = some d)
      (value : Denotes decls d.value c) : Denotes decls (.name id) c
  | truth {id b} (undeclared : decls.find? (·.name.text = id.text) = none)
      (found : predeclared.find? id.text = some (.truth b)) : Denotes decls (.name id) (.bool b)
  | literal {pos kind text c} (reads : Constant.ofLiteral? kind text = some c) :
      Denotes decls (.literal pos kind text) c
  | unary {pos op x a c} (operand : Denotes decls x a) (folds : Constant.unary op a = some c) :
      Denotes decls (.unary pos op x) c
  | binary {op x y a b c} (left : Denotes decls x a) (right : Denotes decls y b)
      (folds : Constant.binary op a b = some c) : Denotes decls (.binary op x y) c
  | paren {pos x c} (inner : Denotes decls x c) : Denotes decls (.paren pos x) c

namespace Denotes

variable {decls : List ConstDecl} {e : Expr} {c c' : Constant}

theorem unique (h : Denotes decls e c) (h' : Denotes decls e c') : c = c' := by
  induction h generalizing c' with
  | const found _ ih =>
      cases h' with
      | const found' value =>
          cases found.symm.trans found'
          exact ih value
      | truth undeclared => rw [found] at undeclared; cases undeclared
  | truth undeclared found =>
      cases h' with
      | const found' => rw [undeclared] at found'; cases found'
      | truth _ found' => cases found.symm.trans found'; rfl
  | literal reads =>
      cases h' with
      | literal reads' => exact Option.some.inj (reads.symm.trans reads')
  | unary _ folds ih =>
      cases h' with
      | unary operand folds' =>
          cases ih operand
          exact Option.some.inj (folds.symm.trans folds')
  | binary _ _ folds ihx ihy =>
      cases h' with
      | binary left right folds' =>
          cases ihx left
          cases ihy right
          exact Option.some.inj (folds.symm.trans folds')
  | paren _ ih =>
      cases h' with
      | paren inner => exact ih inner

/-- Where `values` has the value of each constant, an expression evaluates to what it denotes. -/
theorem evaluate {values : String → Option Constant} (h : Denotes decls e c)
    (hdecl : ∀ name d v, decls.find? (·.name.text = name) = some d → Denotes decls d.value v →
      values name = some v)
    (hnone : ∀ name, decls.find? (·.name.text = name) = none → values name = none) :
    e.evaluate values = some c := by
  induction h with
  | const found value => simp [Expr.evaluate, hdecl _ _ _ found value]
  | truth undeclared found => simp [Expr.evaluate, hnone _ undeclared, found]
  | literal reads => exact reads
  | unary _ folds ih => simp [Expr.evaluate, ih, folds]
  | binary _ _ folds ihx ihy => simp [Expr.evaluate, Constant.fold, ihx, ihy, folds]
  | paren _ ih => exact ih

/-- The constants that are named in an expression with a value lead nowhere for ever. -/
theorem acc (hnames : (decls.map (·.name.text)).Nodup) (h : Denotes decls e c) :
    ∀ d ∈ decls, e.Mentions d.name.text → Acc (flip (ConstDecl.Refers decls)) d := by
  induction h with
  | @const id d' c found _ ih =>
      rintro d hd ⟨id', hmem, hname⟩
      obtain rfl : id' = id := by simpa [Expr.inner] using hmem
      have hd' : d' ∈ decls := List.mem_of_find?_eq_some found
      have hname' : d'.name.text = id'.text := by simpa using List.find?_some found
      obtain rfl : d' = d := List.inj_on_of_nodup_map hnames hd' hd (hname'.trans hname)
      exact .intro _ fun x hx => ih x hx.target hx.mentions
  | @truth id b undeclared _ =>
      rintro d hd ⟨id', hmem, hname⟩
      obtain rfl : id' = id := by simpa [Expr.inner] using hmem
      exact absurd hname.symm (by simpa using List.find?_eq_none.1 undeclared d hd)
  | literal =>
      rintro d _ ⟨id, hmem, _⟩
      simp [Expr.inner] at hmem
  | unary _ _ ih | paren _ ih =>
      rintro d hd ⟨id, hmem, hname⟩
      exact ih d hd ⟨id, by simpa [Expr.inner] using hmem, hname⟩
  | @binary op x y a b c _ _ _ ihx ihy =>
      rintro d hd ⟨id, hmem, hname⟩
      have hmem : .name id ∈ x :: x.inner ∨ .name id ∈ y :: y.inner := by
        simpa [Expr.inner, or_assoc] using hmem
      rcases hmem with hmem | hmem
      · exact ihx d hd ⟨id, hmem, hname⟩
      · exact ihy d hd ⟨id, hmem, hname⟩

end Denotes

variable {env : Env} {decls : List ConstDecl} {rest rest' : ConstSource}
  {V : Expr → Constant → Prop} {I : List (String × Folding) → Prop}

variable {K : String → Typed.Const → Prop}

/-- What is known of a constant that was folded: its declaration, its type, and that its value is the
one that its expression denotes. -/
structure Derived (env : Env) (decls : List ConstDecl) (name : String) (k : Typed.Const) : Prop where
  found : decls.find? (·.name.text = name) = some k.decl
  type : NamesBasic env k.decl.type (some k.type)
  value : Denotes decls k.decl.value k.value

variable {f : File} {c : Collected}

end Check

namespace File

variable {f : File} {limit : Option Nat} {u : Typed.File}

end File

end ClassLang

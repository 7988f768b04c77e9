import ClassLang.Proofs.Tree.Follow
import ClassLang.Tree.Nodes

/-!
Expressions inside a tree. Every expression in the tree of a derivation has a derivation of its
own, and reads no terminals but those of the whole.
-/

namespace ClassLang

open Grammar (Terminal Items Items1)

/-! The expressions of a tree -/

namespace Node

/-- The expression that a node is. -/
def expr? : Node → Option Expr
  | .expr e => some e
  | _ => none

/-- The expressions among nodes. -/
def exprs (ns : List Node) : List Expr := ns.filterMap expr?

theorem mem_exprs {e : Expr} {ns : List Node} : e ∈ exprs ns ↔ .expr e ∈ ns := by
  rw [exprs, List.mem_filterMap]
  constructor
  · rintro ⟨n, hn, he⟩
    cases n <;> cases he
    exact hn
  · exact fun h => ⟨_, h, rfl⟩

variable {ms ns : List Node}

@[simp]
theorem exprs_nil : exprs [] = [] := rfl

@[simp]
theorem exprs_append : exprs (ms ++ ns) = exprs ms ++ exprs ns := List.filterMap_append

@[simp]
theorem exprs_visit (n : Node) : exprs (visit (fun _ => true) n ns) = n.expr?.toList ++ exprs ns := by
  cases n <;> rfl

@[simp]
theorem exprs_flatMap {α : Type} (f : α → List Node) (xs : List α) :
    exprs (xs.flatMap f) = xs.flatMap fun x => exprs (f x) := by
  induction xs with
  | nil => rfl
  | cons x xs ih => rw [List.flatMap_cons, exprs_append, ih, List.flatMap_cons]

/-- Parts without an expression. -/
@[simp]
theorem flatMap_none {α : Type} (xs : List α) : xs.flatMap (fun _ => ([] : List Expr)) = [] :=
  List.flatMap_eq_nil_iff.2 fun _ _ => rfl

end Node

open Node (exprs)

mutual

/-- There are no expressions in a type. -/
@[simp]
theorem TypeExpr.exprs_nodes : (t : TypeExpr) → exprs (t.nodes fun _ => true) = []
  | .name id => by simp [TypeExpr.nodes, Node.expr?]
  | .apply base args => by simp [TypeExpr.nodes, Node.expr?, TypeExpr.exprs_nodesOf args]

@[inherit_doc TypeExpr.exprs_nodes]
theorem TypeExpr.exprs_nodesOf : (ts : List TypeExpr) →
    exprs (TypeExpr.nodesOf (fun _ => true) ts) = []
  | [] => rfl
  | t :: rest => by simp [TypeExpr.nodesOf, t.exprs_nodes, TypeExpr.exprs_nodesOf rest]

end

mutual

/-- The expressions of a tree without its positions. -/
theorem Expr.exprs_bare : (x : Expr) →
    exprs (x.bare.nodes fun _ => true) = (exprs (x.nodes fun _ => true)).map Expr.bare
  | .name id => by simp [Expr.nodes, Expr.bare, Node.expr?]
  | .literal pos k s => by simp [Expr.nodes, Expr.bare, Node.expr?]
  | .unary pos op x => by simp [Expr.nodes, Expr.bare, Node.expr?, x.exprs_bare]
  | .binary op x y => by simp [Expr.nodes, Expr.bare, Node.expr?, x.exprs_bare, y.exprs_bare]
  | .call fn args => by
    simp [Expr.nodes, Expr.bare, Node.expr?, fn.exprs_bare, Expr.exprs_bareAll args]
  | .select x sel => by simp [Expr.nodes, Expr.bare, Node.expr?, x.exprs_bare]
  | .init cls elems => by simp [Expr.nodes, Expr.bare, Node.expr?, Expr.exprs_bareElems elems]
  | .paren pos x => by simp [Expr.nodes, Expr.bare, Node.expr?, x.exprs_bare]

@[inherit_doc Expr.exprs_bare]
theorem Expr.exprs_bareAll : (xs : List Expr) →
    exprs (Expr.nodesOf (fun _ => true) (Expr.bareAll xs)) =
      (exprs (Expr.nodesOf (fun _ => true) xs)).map Expr.bare
  | [] => rfl
  | x :: rest => by simp [Expr.nodesOf, Expr.bareAll, x.exprs_bare, Expr.exprs_bareAll rest]

@[inherit_doc Expr.exprs_bare]
theorem Expr.exprs_bareElems : (es : List (Ident × Expr)) →
    exprs (Expr.elemNodes (fun _ => true) (Expr.bareElems es)) =
      (exprs (Expr.elemNodes (fun _ => true) es)).map Expr.bare
  | [] => rfl
  | (key, x) :: rest => by
    simp [Expr.elemNodes, Expr.bareElems, Node.expr?, x.exprs_bare, Expr.exprs_bareElems rest]

end

mutual

@[inherit_doc Expr.exprs_bare]
theorem Stmt.exprs_bare : (s : Stmt) →
    exprs (s.bare.nodes fun _ => true) = (exprs (s.nodes fun _ => true)).map Expr.bare
  | .empty pos => by simp [Stmt.nodes, Stmt.bare, Node.expr?]
  | .expr x => by simp [Stmt.nodes, Stmt.bare, Node.expr?, x.exprs_bare]
  | .bind pos name type value => by
    simp [Stmt.nodes, Stmt.bare, Node.expr?, value.exprs_bare]
  | .assign lhs rhs => by
    simp [Stmt.nodes, Stmt.bare, Node.expr?, lhs.exprs_bare, rhs.exprs_bare]
  | .block body => by simp [Stmt.nodes, Stmt.bare, body.exprs_bare]
  | .ifElse pos cond body none => by
    simp [Stmt.nodes, Stmt.bare, Stmt.bareOther, Node.expr?, cond.exprs_bare, body.exprs_bare]
  | .ifElse pos cond body (some s) => by
    simp [Stmt.nodes, Stmt.bare, Stmt.bareOther, Node.expr?, cond.exprs_bare, body.exprs_bare,
      s.exprs_bare]
  | .whileLoop pos cond body => by
    simp [Stmt.nodes, Stmt.bare, Node.expr?, cond.exprs_bare, body.exprs_bare]
  | .forLoop pos var range body => by
    simp [Stmt.nodes, Stmt.bare, Range.nodes, Node.expr?, Expr.exprs_bare, body.exprs_bare]
  | .ret pos none => by simp [Stmt.nodes, Stmt.bare, Node.expr?]
  | .ret pos (some x) => by simp [Stmt.nodes, Stmt.bare, Node.expr?, x.exprs_bare]

@[inherit_doc Expr.exprs_bare]
theorem Block.exprs_bare : (b : Block) →
    exprs (b.bare.nodes fun _ => true) = (exprs (b.nodes fun _ => true)).map Expr.bare
  | .mk pos stmts close => by
    simp [Block.nodes, Block.bare, Node.expr?, Stmt.exprs_bareAll stmts]

@[inherit_doc Expr.exprs_bare]
theorem Stmt.exprs_bareAll : (ss : List Stmt) →
    exprs (Stmt.nodesOf (fun _ => true) (Stmt.bareAll ss)) =
      (exprs (Stmt.nodesOf (fun _ => true) ss)).map Expr.bare
  | [] => rfl
  | s :: rest => by simp [Stmt.nodesOf, Stmt.bareAll, s.exprs_bare, Stmt.exprs_bareAll rest]

end

/-- The expressions of a function are those of its body. -/
@[simp]
theorem FuncDecl.exprs_nodes (d : FuncDecl) : exprs (d.nodes fun _ => true) =
    d.body.toList.flatMap fun b => exprs (b.nodes fun _ => true) := by
  simp [FuncDecl.nodes, TypeParamDecl.nodes, FieldDecl.nodes, Node.expr?]

theorem FuncDecl.exprs_bare (d : FuncDecl) :
    exprs (d.bare.nodes fun _ => true) = (exprs (d.nodes fun _ => true)).map Expr.bare := by
  cases hbody : d.body with
  | none => simp [FuncDecl.bare, hbody]
  | some b => simp [FuncDecl.bare, hbody, b.exprs_bare]

/-- The expressions of a class are those of its methods. -/
@[simp]
theorem ClassDecl.exprs_nodes (d : ClassDecl) : exprs (d.nodes fun _ => true) =
    d.methods.flatMap fun m => exprs (m.nodes fun _ => true) := by
  simp [ClassDecl.nodes, TypeParamDecl.nodes, FieldDecl.nodes, Node.expr?]

theorem Decl.exprs_bare : (d : Decl) →
    exprs (d.bare.nodes fun _ => true) = (exprs (d.nodes fun _ => true)).map Expr.bare
  | .cls d => by
    simp only [Decl.nodes, Decl.bare, ClassDecl.exprs_nodes, List.flatMap_map, List.map_flatMap,
      FuncDecl.exprs_bare]
  | .bound d => by
    simp only [Decl.nodes, Decl.bare, Node.exprs_visit, Node.exprs_append, Node.exprs_flatMap,
      List.flatMap_map, List.map_append, List.map_flatMap, FuncDecl.exprs_bare]
    rfl
  | .func d => d.exprs_bare
  | .const d => by simp [Decl.nodes, Decl.bare, Node.expr?, Expr.exprs_bare]

theorem File.exprs_bare (f : File) :
    exprs (f.bare.nodes fun _ => true) = (exprs (f.nodes fun _ => true)).map Expr.bare := by
  simp [File.nodes, File.bare, Node.expr?, List.flatMap_map, List.map_flatMap, Decl.exprs_bare]

/-! The expressions of a derivation -/

namespace Grammar

/-- An expression that has a derivation, whose terminals are all in `w`. -/
def Derived (w : List Terminal) (e : ClassLang.Expr) : Prop :=
  ∃ d : Expr, d.tree = e ∧ d.yield ⊆ w

theorem Derived.mono {v w : List Terminal} {e : ClassLang.Expr} (h : Derived v e) (hw : v ⊆ w) :
    Derived w e :=
  let ⟨d, htree, hyield⟩ := h
  ⟨d, htree, List.Subset.trans hyield hw⟩

theorem level_le_six (o : BinaryOp) : level o ≤ 6 := by cases o <;> decide

theorem Binary.derived {n : Nat} (d : Binary n) (h : n ≤ 6) : Derived d.yield d.tree := by
  obtain ⟨d', htree, hyield⟩ := exists_binary_of_le h d
  exact ⟨d', htree, by rw [hyield]; exact List.Subset.refl _⟩

theorem Unary.derived (d : Unary) : Derived d.yield d.tree :=
  (Binary.unary d).derived (Nat.zero_le _)

theorem Primary.derived (d : Primary) : Derived d.yield d.tree := (Unary.primary d).derived

theorem Operand.derived (d : Operand) : Derived d.yield d.tree := (Primary.operand d).derived

mutual

/-- Every expression in the tree of a derivation has a derivation of its own. -/
theorem Binary.derived_inside : {n : Nat} → (d : Binary n) →
    ∀ e ∈ exprs (d.tree.nodes fun _ => true), Derived d.yield e
  | _, .unary x, e, he => x.derived_inside e he
  | _, .lift x, e, he => x.derived_inside e he
  | _, .op o h x y, e, he => by
    simp only [Binary.tree, Expr.nodes, Node.exprs_visit, Node.exprs_append, Node.expr?,
      Option.toList_some, List.singleton_append, List.mem_cons, List.mem_append] at he
    rcases he with rfl | he | he
    · exact (Binary.op o h x y).derived (h ▸ level_le_six o)
    · exact (x.derived_inside e he).mono fun t ht => by simp [Binary.yield, ht]
    · exact (y.derived_inside e he).mono fun t ht => by simp [Binary.yield, ht]
termination_by structural _ d => d

@[inherit_doc Binary.derived_inside]
theorem Unary.derived_inside : (d : Unary) →
    ∀ e ∈ exprs (d.tree.nodes fun _ => true), Derived d.yield e
  | .primary x, e, he => x.derived_inside e he
  | .op o x, e, he => by
    simp only [Unary.tree, Expr.nodes, Node.exprs_visit, Node.expr?, Option.toList_some,
      List.singleton_append, List.mem_cons] at he
    rcases he with rfl | he
    · exact (Unary.op o x).derived
    · exact (x.derived_inside e he).mono fun t ht => by simp [Unary.yield, ht]
termination_by structural d => d

@[inherit_doc Binary.derived_inside]
theorem Primary.derived_inside : (d : Primary) →
    ∀ e ∈ exprs (d.tree.nodes fun _ => true), Derived d.yield e
  | .operand x, e, he => x.derived_inside e he
  | .call fn, e, he => by
    simp only [Primary.tree, Expr.nodes, Expr.nodesOf, Node.exprs_visit, Node.expr?,
      Option.toList_some, List.singleton_append, List.mem_cons, List.append_nil] at he
    rcases he with rfl | he
    · exact (Primary.call fn).derived
    · exact (fn.derived_inside e he).mono fun t ht => by simp [Primary.yield, ht]
  | .callWith fn args, e, he => by
    simp only [Primary.tree, Expr.nodes, Node.exprs_visit, Node.exprs_append, Node.expr?,
      Option.toList_some, List.singleton_append, List.mem_cons, List.mem_append] at he
    rcases he with rfl | he | he
    · exact (Primary.callWith fn args).derived
    · exact (fn.derived_inside e he).mono fun t ht => by simp [Primary.yield, ht]
    · exact (Binary.derived_insideAll args e he).mono fun t ht => by simp [Primary.yield, ht]
  | .select x sel, e, he => by
    simp only [Primary.tree, Expr.nodes, Node.exprs_visit, Node.exprs_append, Node.exprs_nil,
      Node.expr?, Option.toList_some, Option.toList_none, List.singleton_append, List.mem_cons,
      List.append_nil] at he
    rcases he with rfl | he
    · exact (Primary.select x sel).derived
    · exact (x.derived_inside e he).mono fun t ht => by simp [Primary.yield, ht]
termination_by structural d => d

@[inherit_doc Binary.derived_inside]
theorem Operand.derived_inside : (d : Operand) →
    ∀ e ∈ exprs (d.tree.nodes fun _ => true), Derived d.yield e
  | .name text, e, he => by
    obtain rfl : e = (Operand.name text).tree := by
      simpa [Operand.tree, Expr.nodes, Node.expr?] using he
    exact (Operand.name text).derived
  | .literal kind text, e, he => by
    obtain rfl : e = (Operand.literal kind text).tree := by
      simpa [Operand.tree, Expr.nodes, Node.expr?] using he
    exact (Operand.literal kind text).derived
  | .paren x, e, he => by
    simp only [Operand.tree, Expr.nodes, Node.exprs_visit, Node.expr?, Option.toList_some,
      List.singleton_append, List.mem_cons] at he
    rcases he with rfl | he
    · exact (Operand.paren x).derived
    · exact (x.derived_inside e he).mono fun t ht => by simp [Operand.yield, ht]
  | .init cls elems, e, he => by
    simp only [Operand.tree, Expr.nodes, Node.exprs_visit, Node.exprs_append, Node.exprs_nil,
      Node.expr?, Option.toList_some, Option.toList_none, List.singleton_append, List.mem_cons,
      List.nil_append] at he
    rcases he with rfl | he
    · exact (Operand.init cls elems).derived
    · exact (Elem.derived_insideAll elems e he).mono fun t ht => by simp [Operand.yield, ht]
termination_by structural d => d

@[inherit_doc Binary.derived_inside]
theorem Elem.derived_inside : (d : Elem) →
    ∀ e ∈ exprs (d.tree.2.nodes fun _ => true), Derived d.yield e
  | .mk key value, e, he => (value.derived_inside e he).mono fun t ht => by simp [Elem.yield, ht]
termination_by structural d => d

@[inherit_doc Binary.derived_inside]
theorem Binary.derived_insideAll : (xs : Items1 (Binary 6)) →
    ∀ e ∈ exprs (Expr.nodesOf (fun _ => true) (Binary.treeAll xs)), Derived (Binary.yieldAll xs) e
  | .last x, e, he => x.derived_inside e (by simpa [Binary.treeAll, Expr.nodesOf] using he)
  | .more x rest, e, he => by
    simp only [Binary.treeAll, Expr.nodesOf, Node.exprs_append, List.mem_append] at he
    rcases he with he | he
    · exact (x.derived_inside e he).mono fun t ht => by simp [Binary.yieldAll, ht]
    · exact (Binary.derived_insideAll rest e he).mono fun t ht => by simp [Binary.yieldAll, ht]
termination_by structural xs => xs

@[inherit_doc Binary.derived_inside]
theorem Elem.derived_insideAll : (es : Items Elem) →
    ∀ e ∈ exprs (Expr.elemNodes (fun _ => true) (Elem.treeAll es)), Derived (Elem.yieldAll es) e
  | .none, e, he => by simp [Elem.treeAll, Expr.elemNodes] at he
  | .last x, e, he =>
    x.derived_inside e (by simpa [Elem.treeAll, Expr.elemNodes, Node.expr?] using he)
  | .more x rest, e, he => by
    simp only [Elem.treeAll, Expr.elemNodes, Node.exprs_visit, Node.exprs_append, Node.exprs_nil,
      Node.expr?, Option.toList_none, List.nil_append, List.mem_append] at he
    rcases he with he | he
    · exact (x.derived_inside e he).mono fun t ht => by simp [Elem.yieldAll, ht]
    · exact (Elem.derived_insideAll rest e he).mono fun t ht => by simp [Elem.yieldAll, ht]
termination_by structural es => es

end

mutual

@[inherit_doc Binary.derived_inside]
theorem Stmt.derived_inside : (d : Stmt) →
    ∀ e ∈ exprs (d.tree.nodes fun _ => true), Derived d.yield e
  | .empty, e, he => by simp [Stmt.tree, Stmt.nodes, Node.expr?] at he
  | .expr x, e, he => by
    simp only [Stmt.tree, Stmt.nodes, Node.exprs_visit, Node.expr?, Option.toList_none,
      List.nil_append] at he
    exact (x.derived_inside e he).mono fun t ht => by simp [Stmt.yield, ht]
  | .bind name type value, e, he => by
    have he : e ∈ exprs (value.tree.nodes fun _ => true) := by
      simpa [Stmt.tree, Stmt.nodes, Node.expr?] using he
    exact (value.derived_inside e he).mono fun t ht => by simp [Stmt.yield, ht]
  | .assign lhs rhs, e, he => by
    simp only [Stmt.tree, Stmt.nodes, Node.exprs_visit, Node.exprs_append, Node.expr?,
      Option.toList_none, List.nil_append, List.mem_append] at he
    rcases he with he | he
    · exact (lhs.derived_inside e he).mono fun t ht => by simp [Stmt.yield, ht]
    · exact (rhs.derived_inside e he).mono fun t ht => by simp [Stmt.yield, ht]
  | .block body, e, he => body.derived_inside e (by simpa [Stmt.tree, Stmt.nodes] using he)
  | .ifElse i, e, he => i.derived_inside e he
  | .whileLoop cond body, e, he => by
    simp only [Stmt.tree, Stmt.nodes, Node.exprs_visit, Node.exprs_append, Node.expr?,
      Option.toList_none, List.nil_append, List.mem_append] at he
    rcases he with he | he
    · exact (cond.derived_inside e he).mono fun t ht => by simp [Stmt.yield, ht]
    · exact (body.derived_inside e he).mono fun t ht => by simp [Stmt.yield, ht]
  | .forLoop var low high body, e, he => by
    simp only [Stmt.tree, Stmt.nodes, Range.nodes, Node.exprs_visit, Node.exprs_append,
      Node.exprs_nil, Node.expr?, Option.toList_none, List.nil_append, List.mem_append] at he
    rcases he with (he | he) | he
    · exact (low.derived_inside e he).mono fun t ht => by simp [Stmt.yield, ht]
    · exact (high.derived_inside e he).mono fun t ht => by simp [Stmt.yield, ht]
    · exact (body.derived_inside e he).mono fun t ht => by simp [Stmt.yield, ht]
  | .ret none, e, he => by simp [Stmt.tree, Stmt.nodes, Node.expr?] at he
  | .ret (some x), e, he => by
    simp only [Stmt.tree, Option.map_some, Stmt.nodes, Node.exprs_visit, Node.expr?, Option.toList_none,
      List.nil_append] at he
    exact (x.derived_inside e he).mono fun t ht => by simp [Stmt.yield, optional, ht]
termination_by structural d => d

@[inherit_doc Binary.derived_inside]
theorem If.derived_inside : (d : If) →
    ∀ e ∈ exprs (d.tree.nodes fun _ => true), Derived d.yield e
  | .mk cond body other, e, he => by
    cases hother : other.tree with
    | none =>
        simp only [If.tree, hother, Stmt.nodes, Node.exprs_visit, Node.exprs_append, Node.expr?,
          Option.toList_none, List.nil_append, List.append_nil, List.mem_append] at he
        rcases he with he | he
        · exact (cond.derived_inside e he).mono fun t ht => by simp [If.yield, ht]
        · exact (body.derived_inside e he).mono fun t ht => by simp [If.yield, ht]
    | some s =>
        simp only [If.tree, hother, Stmt.nodes, Node.exprs_visit, Node.exprs_append, Node.expr?,
          Option.toList_none, List.nil_append, List.mem_append] at he
        rcases he with (he | he) | he
        · exact (cond.derived_inside e he).mono fun t ht => by simp [If.yield, ht]
        · exact (body.derived_inside e he).mono fun t ht => by simp [If.yield, ht]
        · exact (other.derived_inside s hother e he).mono fun t ht => by simp [If.yield, ht]
termination_by structural d => d

@[inherit_doc Binary.derived_inside]
theorem Else.derived_inside : (d : Else) → ∀ s, d.tree = some s →
    ∀ e ∈ exprs (s.nodes fun _ => true), Derived d.yield e
  | .none, s, hs, e, he => by cases hs
  | .chain i, s, hs, e, he => by
    obtain rfl : i.tree = s := Option.some.inj hs
    exact (i.derived_inside e he).mono fun t ht => by simp [Else.yield, ht]
  | .block body, s, hs, e, he => by
    obtain rfl : .block body.tree = s := Option.some.inj hs
    exact (body.derived_inside e (by simpa [Stmt.nodes] using he)).mono fun t ht => by simp [Else.yield, ht]
termination_by structural d => d

@[inherit_doc Binary.derived_inside]
theorem Block.derived_inside : (d : Block) →
    ∀ e ∈ exprs (d.tree.nodes fun _ => true), Derived d.yield e
  | .mk stmts, e, he => by
    simp only [Block.tree, Block.nodes, Node.exprs_visit, Node.expr?, Option.toList_none,
      List.nil_append] at he
    exact (Stmt.derived_insideAll stmts e he).mono fun t ht => by simp [Block.yield, ht]
termination_by structural d => d

@[inherit_doc Binary.derived_inside]
theorem Stmt.derived_insideAll : (ss : List Stmt) →
    ∀ e ∈ exprs (Stmt.nodesOf (fun _ => true) (Stmt.treeAll ss)), Derived (Stmt.yieldAll ss) e
  | [], e, he => by simp [Stmt.treeAll, Stmt.nodesOf] at he
  | s :: rest, e, he => by
    simp only [Stmt.treeAll, Stmt.nodesOf, Node.exprs_append, List.mem_append] at he
    rcases he with he | he
    · exact (s.derived_inside e he).mono fun t ht => by simp [Stmt.yieldAll, ht]
    · exact (Stmt.derived_insideAll rest e he).mono fun t ht => by simp [Stmt.yieldAll, ht]
termination_by structural ss => ss

end

theorem Func.derived_inside {member : Bool} (d : Func member) :
    ∀ e ∈ exprs (d.tree.nodes fun _ => true), Derived d.yield e := by
  intro e he
  have hbody : e ∈ exprs (d.body.tree.nodes fun _ => true) := by simpa [Func.tree] using he
  exact (d.body.derived_inside e hbody).mono fun t ht => by simp [Func.yield, ht]

theorem Decl.derived_inside : (d : Decl) →
    ∀ e ∈ exprs (d.tree.nodes fun _ => true), Derived d.yield e
  | .cls name tparams parent fields methods, e, he => by
    simp only [Decl.tree, Decl.nodes, ClassDecl.exprs_nodes, List.mem_flatMap, List.mem_map] at he
    obtain ⟨_, ⟨m, hm, rfl⟩, he⟩ := he
    refine (m.derived_inside e he).mono fun t ht => ?_
    have hmethods : t ∈ methods.flatMap Func.yield := List.mem_flatMap.2 ⟨m, hm, ht⟩
    simp only [Decl.yield, List.mem_cons, List.mem_append, hmethods, true_or, or_true]
  | .bound name methods, e, he => by
    -- the methods of a bound have no bodies
    have hnone : exprs ((Decl.bound name methods).tree.nodes fun _ => true) = [] := by
      simp [Decl.tree, Decl.nodes, List.flatMap_map, Header.tree, Node.expr?]
    rw [hnone] at he
    cases he
  | .func f, e, he => f.derived_inside e he
  | .host header semi, e, he => by simp [Decl.tree, Decl.nodes, Header.tree] at he
  | .const name type value, e, he => by
    have he : e ∈ exprs (value.tree.nodes fun _ => true) := by
      simpa [Decl.tree, Decl.nodes, Node.expr?] using he
    exact (value.derived_inside e he).mono fun t ht => by simp [Decl.yield, ht]

/-- Every expression in the tree of a unit has a derivation of its own. -/
theorem Derivation.derived_inside (d : Derivation) {name : String} :
    ∀ e ∈ exprs ((d.tree name).nodes fun _ => true), Derived d.yield e := by
  intro e he
  simp only [Derivation.tree, File.nodes, Node.exprs_visit, Node.exprs_flatMap, Node.expr?,
    Option.toList_none, List.nil_append, List.mem_flatMap, List.mem_map] at he
  obtain ⟨_, ⟨g, hg, rfl⟩, he⟩ := he
  exact (g.derived_inside e he).mono fun t ht => List.mem_flatMap.2 ⟨g, hg, ht⟩

end Grammar

end ClassLang

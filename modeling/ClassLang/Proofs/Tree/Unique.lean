import ClassLang.Proofs.Tree.Follow

/-!
The marks that a tree does not keep. A tree determines its derivation up to a comma behind
the last part of a list, brackets with nothing in them, and the semicolon behind a host
function; the word shows which of these are there. So a word and a tree have at most one
derivation between them.
-/

namespace ClassLang

namespace Grammar

section

variable {γ δ : Type} {tree : δ → γ} {y : δ → List Terminal}

/-- A derivation is determined by its tree and a word that starts with what it yields, and so
is the rest of this word. -/
def Determined (tree : δ → γ) (y : δ → List Terminal) (d : δ) : Prop :=
  ∀ d' r r', tree d = tree d' → y d ++ r = y d' ++ r' → d = d' ∧ r = r'

theorem Items1.toList_ne_nil (ds : Items1 δ) : ds.toList ≠ [] := by
  cases ds <;> simp [Items1.toList]

theorem Items1.determined : ∀ {ds : Items1 δ}, (∀ d ∈ ds.toList, Determined tree y d) →
    Determined (fun ds : Items1 δ => ds.toList.map tree) (Items1.yield y) ds
  | .last d, h, .last d', r, r', htree, hyield => by
      obtain ⟨rfl, rfl⟩ := h d (List.mem_singleton.2 rfl) d' r r' (List.cons.inj htree).1 hyield
      exact ⟨rfl, rfl⟩
  | .last d, _, .more d' ds', r, r', htree, _ => by
      simp [Items1.toList, ds'.toList_ne_nil] at htree
  | .more d ds, _, .last d', r, r', htree, _ => by
      simp [Items1.toList, ds.toList_ne_nil] at htree
  | .more d ds, h, .more d' ds', r, r', htree, hyield => by
      obtain ⟨hd, hds⟩ := List.cons.inj htree
      rw [Items1.yield, Items1.yield, List.append_assoc, List.append_assoc] at hyield
      obtain ⟨rfl, hrest⟩ := h d List.mem_cons_self d' _ _ hd hyield
      obtain ⟨rfl, rfl⟩ := determined (fun d hd => h d (List.mem_cons_of_mem _ hd)) ds' r r' hds
        (List.cons.inj hrest).2
      exact ⟨rfl, rfl⟩

/-- A list that a comma may end is determined where none follows. -/
theorem Items.determined : ∀ {ds ds' : Items δ} {r r' : List Terminal},
    (∀ d ∈ ds.toList, Determined tree y d) → headToken r ≠ .comma → headToken r' ≠ .comma →
    ds.toList.map tree = ds'.toList.map tree → ds.yield y ++ r = ds'.yield y ++ r' →
    ds = ds' ∧ r = r'
  | .none, .none, r, r', _, _, _, _, hyield => ⟨rfl, hyield⟩
  | .last d, .last d', r, r', h, _, _, htree, hyield => by
      obtain ⟨rfl, rfl⟩ := h d (List.mem_singleton.2 rfl) d' r r' (List.cons.inj htree).1 hyield
      exact ⟨rfl, rfl⟩
  | .last d, .more d' ds', r, r', h, hr, _, htree, hyield => by
      rw [Items.yield, Items.yield, List.append_assoc] at hyield
      obtain ⟨_, rfl⟩ := h d (List.mem_singleton.2 rfl) d' _ _ (List.cons.inj htree).1 hyield
      exact absurd rfl hr
  | .more d ds, .last d', r, r', h, _, hr', htree, hyield => by
      rw [Items.yield, Items.yield, List.append_assoc] at hyield
      obtain ⟨_, rfl⟩ := h d List.mem_cons_self d' _ _ (List.cons.inj htree).1 hyield
      exact absurd rfl hr'
  | .more d ds, .more d' ds', r, r', h, hr, hr', htree, hyield => by
      obtain ⟨hd, hds⟩ := List.cons.inj htree
      rw [Items.yield, Items.yield, List.append_assoc, List.append_assoc] at hyield
      obtain ⟨rfl, hrest⟩ := h d List.mem_cons_self d' _ _ hd hyield
      obtain ⟨rfl, rfl⟩ := determined (fun d hd => h d (List.mem_cons_of_mem _ hd)) hr hr' hds
        (List.cons.inj hrest).2
      exact ⟨rfl, rfl⟩
  | .none, .last _, _, _, _, _, _, htree, _ => by cases htree
  | .none, .more _ _, _, _, _, _, _, htree, _ => by cases htree
  | .last _, .none, _, _, _, _, _, htree, _ => by cases htree
  | .more _ _, .none, _, _, _, _, _, htree, _ => by cases htree

end

theorem ident_injective {a b : String} (h : ident a = ident b) : a = b := congrArg Ident.text h

/-! Types -/

mutual

theorem Ty.determined : ∀ d : Ty, Determined Ty.tree Ty.yield d
  | .name a, .name b, r, r', htree, hyield => by
      obtain rfl := ident_injective (TypeExpr.name.inj htree)
      exact ⟨rfl, (List.cons.inj hyield).2⟩
  | .name _, .apply _ _, r, r', htree, _ => by cases htree
  | .apply _ _, .name _, r, r', htree, _ => by cases htree
  | .apply a args, .apply b args', r, r', htree, hyield => by
      obtain ⟨hbase, hargs⟩ := TypeExpr.apply.inj htree
      obtain rfl := ident_injective hbase
      simp only [Ty.yield, Ty.yieldAll_eq, Ty.treeAll_eq, List.cons_append, List.append_assoc,
        List.cons.injEq, true_and, List.nil_append] at hargs hyield
      obtain ⟨rfl, hrest⟩ := Items1.determined (Ty.determinedAll args) args' _ _ hargs hyield
      exact ⟨rfl, (List.cons.inj hrest).2⟩

theorem Ty.determinedAll : ∀ ds : Items1 Ty, ∀ d ∈ ds.toList, Determined Ty.tree Ty.yield d
  | .last d, d', hd' => by
      rw [List.mem_singleton.1 hd']
      exact d.determined
  | .more d ds, d', hd' => by
      rcases List.mem_cons.1 hd' with hd' | hd'
      · rw [hd']
        exact d.determined
      · exact Ty.determinedAll ds d' hd'

end

/-! Expressions -/

theorem Primary.tree_ne_binary (d : Primary) {o : BinaryOp} {x y : ClassLang.Expr} :
    d.tree ≠ .binary o x y := by
  intro h
  cases d with
  | operand x => cases x <;> cases h
  | _ => cases h

/-- The operator of an expression is of one of its levels. -/
theorem Binary.level_le : ∀ {n : Nat} (d : Binary n) {o : BinaryOp} {x y : ClassLang.Expr},
    d.tree = .binary o x y → level o ≤ n
  | _, .unary (.primary d), _, _, _, h => absurd h d.tree_ne_binary
  | _, .unary (.op _ _), _, _, _, h => by cases h
  | _, .lift d, _, _, _, h => Nat.le_succ_of_le (d.level_le h)
  | _, .op _ hlevel _ _, _, _, _, h => by
      obtain ⟨rfl, _⟩ := Expr.binary.inj h
      exact Nat.le_of_eq hlevel

theorem Primary.tree_ne_unary (d : Primary) {o : UnaryOp} {x : ClassLang.Expr} :
    d.tree ≠ .unary .none o x := by
  intro h
  cases d with
  | operand x => cases x <;> cases h
  | _ => cases h

mutual

theorem Binary.determined : ∀ {n : Nat} (d : Binary n), Determined Binary.tree Binary.yield d
  | _, .unary x, .unary x', r, r', htree, hyield => by
      obtain ⟨rfl, rfl⟩ := x.determined x' r r' htree hyield
      exact ⟨rfl, rfl⟩
  | _, .lift x, .lift x', r, r', htree, hyield => by
      obtain ⟨rfl, rfl⟩ := x.determined x' r r' htree hyield
      exact ⟨rfl, rfl⟩
  | _, .lift x, .op o h y z, r, r', htree, _ => by
      have hle := x.level_le htree
      omega
  | _, .op o h y z, .lift x, r, r', htree, _ => by
      have hle := x.level_le htree.symm
      omega
  | _, .op o h x y, .op o' h' x' y', r, r', htree, hyield => by
      obtain ⟨rfl, hx, hy⟩ := Expr.binary.inj htree
      rw [Binary.yield, Binary.yield, List.append_assoc, List.append_assoc] at hyield
      obtain ⟨rfl, hrest⟩ := x.determined x' _ _ hx hyield
      obtain ⟨rfl, rfl⟩ := y.determined y' _ _ hy (List.cons.inj hrest).2
      exact ⟨rfl, rfl⟩
termination_by structural _ d => d

theorem Unary.determined : ∀ d : Unary, Determined Unary.tree Unary.yield d
  | .primary x, .primary x', r, r', htree, hyield => by
      obtain ⟨rfl, rfl⟩ := x.determined x' r r' htree hyield
      exact ⟨rfl, rfl⟩
  | .primary x, .op _ _, r, r', htree, _ => absurd htree x.tree_ne_unary
  | .op _ _, .primary x, r, r', htree, _ => absurd htree.symm x.tree_ne_unary
  | .op o x, .op o' x', r, r', htree, hyield => by
      obtain ⟨_, rfl, hx⟩ := Expr.unary.inj htree
      obtain ⟨rfl, rfl⟩ := x.determined x' r r' hx (List.cons.inj hyield).2
      exact ⟨rfl, rfl⟩
termination_by structural d => d

theorem Primary.determined : ∀ d : Primary, Determined Primary.tree Primary.yield d
  | .operand x, d', r, r', htree, hyield => by
      cases d' with
      | operand x' =>
          obtain ⟨rfl, rfl⟩ := x.determined x' r r' htree hyield
          exact ⟨rfl, rfl⟩
      | _ => cases x <;> cases htree
  | .call fn, d', r, r', htree, hyield => by
      cases d' with
      | operand x => cases x <;> cases htree
      | call fn' =>
          rw [Primary.yield, Primary.yield, List.append_assoc, List.append_assoc] at hyield
          obtain ⟨rfl, hrest⟩ := fn.determined fn' _ _ (Expr.call.inj htree).1 hyield
          exact ⟨rfl, List.append_cancel_left hrest⟩
      | callWith fn' args =>
          have hargs := (Expr.call.inj htree).2
          simp [Binary.treeAll_eq, args.toList_ne_nil] at hargs
      | select => cases htree
  | .callWith fn args, d', r, r', htree, hyield => by
      cases d' with
      | operand x => cases x <;> cases htree
      | call fn' =>
          have hargs := (Expr.call.inj htree).2
          simp [Binary.treeAll_eq, args.toList_ne_nil] at hargs
      | callWith fn' args' =>
          obtain ⟨hfn, hargs⟩ := Expr.call.inj htree
          rw [Primary.yield, Primary.yield, List.append_assoc, List.append_assoc] at hyield
          obtain ⟨rfl, hrest⟩ := fn.determined fn' _ _ hfn hyield
          simp only [Binary.treeAll_eq, Binary.yieldAll_eq, List.cons_append, List.append_assoc,
            List.cons.injEq, true_and, List.nil_append] at hargs hrest
          obtain ⟨rfl, hclose⟩ := Items1.determined (Binary.determinedAll args) args' _ _ hargs
            hrest
          exact ⟨rfl, (List.cons.inj hclose).2⟩
      | select => cases htree
  | .select x sel, d', r, r', htree, hyield => by
      cases d' with
      | operand x => cases x <;> cases htree
      | select x' sel' =>
          obtain ⟨hx, hsel⟩ := Expr.select.inj htree
          obtain rfl := ident_injective hsel
          rw [Primary.yield, Primary.yield, List.append_assoc, List.append_assoc] at hyield
          obtain ⟨rfl, hrest⟩ := x.determined x' _ _ hx hyield
          exact ⟨rfl, List.append_cancel_left hrest⟩
      | _ => cases htree
termination_by structural d => d

theorem Operand.determined : ∀ d : Operand, Determined Operand.tree Operand.yield d
  | .name a, d', r, r', htree, hyield => by
      cases d' with
      | name b =>
          obtain rfl := ident_injective (Expr.name.inj htree)
          exact ⟨rfl, (List.cons.inj hyield).2⟩
      | _ => cases htree
  | .literal kind text, d', r, r', htree, hyield => by
      cases d' with
      | literal kind' text' =>
          obtain ⟨_, rfl, rfl⟩ := Expr.literal.inj htree
          exact ⟨rfl, (List.cons.inj hyield).2⟩
      | _ => cases htree
  | .paren x, d', r, r', htree, hyield => by
      cases d' with
      | paren x' =>
          simp only [Operand.yield, List.cons_append, List.append_assoc] at hyield
          obtain ⟨rfl, hrest⟩ := x.determined x' _ _ (Expr.paren.inj htree).2
            (List.cons.inj hyield).2
          exact ⟨rfl, (List.cons.inj hrest).2⟩
      | _ => cases htree
  | .init cls elems, d', r, r', htree, hyield => by
      cases d' with
      | init cls' elems' =>
          obtain ⟨hcls, helems⟩ := Expr.init.inj htree
          obtain rfl := ident_injective hcls
          simp only [Operand.yield, Elem.treeAll_eq, Elem.yieldAll_eq, List.cons_append,
            List.append_assoc, List.cons.injEq, true_and, List.nil_append] at helems hyield
          obtain ⟨rfl, hrest⟩ := Items.determined (Elem.determinedAll elems)
            (fun h => Token.noConfusion h) (fun h => Token.noConfusion h) helems hyield
          exact ⟨rfl, (List.cons.inj hrest).2⟩
      | _ => cases htree
termination_by structural d => d

theorem Elem.determined : ∀ d : Elem, Determined Elem.tree Elem.yield d
  | .mk key value, .mk key' value', r, r', htree, hyield => by
      obtain ⟨hkey, hvalue⟩ := Prod.mk.inj htree
      obtain rfl := ident_injective hkey
      obtain ⟨rfl, rfl⟩ := value.determined value' r r' hvalue
        (List.cons.inj (List.cons.inj hyield).2).2
      exact ⟨rfl, rfl⟩
termination_by structural d => d

theorem Binary.determinedAll : ∀ ds : Items1 (Binary 6), ∀ d ∈ ds.toList,
    Determined Binary.tree Binary.yield d
  | .last d, d', hd' => by
      rw [List.mem_singleton.1 hd']
      exact d.determined
  | .more d ds, d', hd' => by
      rcases List.mem_cons.1 hd' with hd' | hd'
      · rw [hd']
        exact d.determined
      · exact Binary.determinedAll ds d' hd'
termination_by structural ds => ds

theorem Elem.determinedAll : ∀ ds : Items Elem, ∀ d ∈ ds.toList,
    Determined Elem.tree Elem.yield d
  | .last d, d', hd' => by
      rw [List.mem_singleton.1 hd']
      exact d.determined
  | .more d ds, d', hd' => by
      rcases List.mem_cons.1 hd' with hd' | hd'
      · rw [hd']
        exact d.determined
      · exact Elem.determinedAll ds d' hd'
termination_by structural ds => ds

end

/-! Statements -/

mutual

theorem Stmt.determined : ∀ d : Stmt, Determined Stmt.tree Stmt.yield d
  | .empty, d', r, r', htree, hyield => by
      cases d' with
      | empty => exact ⟨rfl, (List.cons.inj hyield).2⟩
      | ifElse i => cases i; cases htree
      | _ => cases htree
  | .expr x, d', r, r', htree, hyield => by
      cases d' with
      | expr x' =>
          rw [Stmt.yield, Stmt.yield, List.append_assoc, List.append_assoc] at hyield
          obtain ⟨rfl, hrest⟩ := x.determined x' _ _ (ClassLang.Stmt.expr.inj htree) hyield
          exact ⟨rfl, (List.cons.inj hrest).2⟩
      | ifElse i => cases i; cases htree
      | _ => cases htree
  | .bind name type value, d', r, r', htree, hyield => by
      cases d' with
      | bind name' type' value' =>
          obtain ⟨_, hname, htype, hvalue⟩ := ClassLang.Stmt.bind.inj htree
          obtain rfl := ident_injective hname
          simp only [Stmt.yield, List.cons_append, List.append_assoc, List.cons.injEq, true_and]
            at hyield
          obtain ⟨rfl, hrest⟩ := type.determined type' _ _ htype hyield
          obtain ⟨rfl, hclose⟩ := value.determined value' _ _ hvalue (List.cons.inj hrest).2
          exact ⟨rfl, (List.cons.inj hclose).2⟩
      | ifElse i => cases i; cases htree
      | _ => cases htree
  | .assign lhs rhs, d', r, r', htree, hyield => by
      cases d' with
      | assign lhs' rhs' =>
          obtain ⟨hlhs, hrhs⟩ := ClassLang.Stmt.assign.inj htree
          simp only [Stmt.yield, List.cons_append, List.append_assoc] at hyield
          obtain ⟨rfl, hrest⟩ := lhs.determined lhs' _ _ hlhs hyield
          obtain ⟨rfl, hclose⟩ := rhs.determined rhs' _ _ hrhs (List.cons.inj hrest).2
          exact ⟨rfl, (List.cons.inj hclose).2⟩
      | ifElse i => cases i; cases htree
      | _ => cases htree
  | .block body, d', r, r', htree, hyield => by
      cases d' with
      | block body' =>
          obtain ⟨rfl, rfl⟩ := body.determined body' r r' (ClassLang.Stmt.block.inj htree) hyield
          exact ⟨rfl, rfl⟩
      | ifElse i => cases i; cases htree
      | _ => cases htree
  | .ifElse (.mk cond body other), d', r, r', htree, hyield => by
      cases d' with
      | ifElse i' =>
          obtain ⟨heq, rfl⟩ := (If.mk cond body other).determined i' r r' htree hyield
          exact ⟨congrArg Stmt.ifElse heq, rfl⟩
      | _ => cases htree
  | .whileLoop cond body, d', r, r', htree, hyield => by
      cases d' with
      | whileLoop cond' body' =>
          obtain ⟨_, hcond, hbody⟩ := ClassLang.Stmt.whileLoop.inj htree
          simp only [Stmt.yield, List.cons_append, List.append_assoc, List.cons.injEq, true_and]
            at hyield
          obtain ⟨rfl, hrest⟩ := cond.determined cond' _ _ hcond hyield
          obtain ⟨rfl, rfl⟩ := body.determined body' r r' hbody hrest
          exact ⟨rfl, rfl⟩
      | ifElse i => cases i; cases htree
      | _ => cases htree
  | .forLoop var low high body, d', r, r', htree, hyield => by
      cases d' with
      | forLoop var' low' high' body' =>
          obtain ⟨_, hvar, hrange, hbody⟩ := ClassLang.Stmt.forLoop.inj htree
          obtain ⟨_, hlow, hhigh⟩ := Range.mk.inj hrange
          obtain rfl := ident_injective hvar
          simp only [Stmt.yield, List.cons_append, List.append_assoc, List.cons.injEq, true_and]
            at hyield
          obtain ⟨rfl, hrest⟩ := low.determined low' _ _ hlow hyield
          obtain ⟨rfl, hclose⟩ := high.determined high' _ _ hhigh (List.cons.inj hrest).2
          obtain ⟨rfl, rfl⟩ := body.determined body' r r' hbody (List.cons.inj hclose).2
          exact ⟨rfl, rfl⟩
      | ifElse i => cases i; cases htree
      | _ => cases htree
  | .ret none, d', r, r', htree, hyield => by
      cases d' with
      | ret result =>
          cases result with
          | none => exact ⟨rfl, List.append_cancel_left hyield⟩
          | some x => cases htree
      | ifElse i => cases i; cases htree
      | _ => cases htree
  | .ret (some x), d', r, r', htree, hyield => by
      cases d' with
      | ret result =>
          cases result with
          | none => cases htree
          | some x' =>
              simp only [Stmt.yield, optional, List.nil_append, List.cons_append, List.append_assoc,
                List.cons.injEq, true_and] at hyield
              obtain ⟨rfl, hrest⟩ := x.determined x' _ _
                (Option.some.inj (ClassLang.Stmt.ret.inj htree).2) hyield
              exact ⟨rfl, (List.cons.inj hrest).2⟩
      | ifElse i => cases i; cases htree
      | _ => cases htree

theorem If.determined : ∀ d : If, Determined If.tree If.yield d
  | .mk cond body other, .mk cond' body' other', r, r', htree, hyield => by
      obtain ⟨_, hcond, hbody, hother⟩ := ClassLang.Stmt.ifElse.inj htree
      simp only [If.yield, List.cons_append, List.append_assoc, List.cons.injEq, true_and]
        at hyield
      obtain ⟨rfl, hrest⟩ := cond.determined cond' _ _ hcond hyield
      obtain ⟨rfl, hclose⟩ := body.determined body' _ _ hbody hrest
      obtain ⟨rfl, rfl⟩ := other.determined other' r r' hother hclose
      exact ⟨rfl, rfl⟩

theorem Else.determined : ∀ d : Else, Determined Else.tree Else.yield d
  | .none, d', r, r', htree, hyield => by
      cases d' with
      | none => exact ⟨rfl, hyield⟩
      | _ => cases htree
  | .chain i, d', r, r', htree, hyield => by
      cases d' with
      | none => cases htree
      | chain i' =>
          obtain ⟨rfl, rfl⟩ := i.determined i' r r' (Option.some.inj htree) (List.cons.inj hyield).2
          exact ⟨rfl, rfl⟩
      | block body => cases i; cases htree
  | .block body, d', r, r', htree, hyield => by
      cases d' with
      | none => cases htree
      | chain i => cases i; cases htree
      | block body' =>
          have hbody := ClassLang.Stmt.block.inj (Option.some.inj htree)
          obtain ⟨rfl, rfl⟩ := body.determined body' r r' hbody (List.cons.inj hyield).2
          exact ⟨rfl, rfl⟩

theorem Block.determined : ∀ d : Block, Determined Block.tree Block.yield d
  | .mk ss, .mk ss', r, r', htree, hyield => by
      simp only [Block.yield, List.cons_append, List.append_assoc, List.cons.injEq, true_and]
        at hyield
      obtain ⟨rfl, hrest⟩ := Stmt.determinedAll ss ss' _ _ (ClassLang.Block.mk.inj htree).2.1 hyield
      exact ⟨rfl, (List.cons.inj hrest).2⟩

theorem Stmt.determinedAll : ∀ ds : List Stmt, Determined Stmt.treeAll Stmt.yieldAll ds
  | [], d', r, r', htree, hyield => by
      cases d' with
      | nil => exact ⟨rfl, hyield⟩
      | cons => cases htree
  | d :: ds, d', r, r', htree, hyield => by
      cases d' with
      | nil => cases htree
      | cons d' ds' =>
          obtain ⟨hd, hds⟩ := List.cons.inj htree
          rw [Stmt.yieldAll, Stmt.yieldAll, List.append_assoc, List.append_assoc] at hyield
          obtain ⟨rfl, hrest⟩ := d.determined d' _ _ hd hyield
          obtain ⟨rfl, rfl⟩ := Stmt.determinedAll ds ds' _ _ hds hrest
          exact ⟨rfl, rfl⟩

end

/-! Declarations -/

/-- A part that may be missing is determined if the part itself is: a tree shows whether it is
there. -/
theorem determined_optional {γ δ : Type} {tree : δ → γ} {y : δ → List Terminal}
    {front : List Terminal} (h : ∀ d, Determined tree y d) (d : Option δ) :
    Determined (Option.map tree) (optional front y) d := by
  intro d' r r' htree hyield
  cases d with
  | none =>
      cases d' with
      | none => exact ⟨rfl, hyield⟩
      | some d' => cases htree
  | some d =>
      cases d' with
      | none => cases htree
      | some d' =>
          rw [optional, optional, List.append_assoc, List.append_assoc] at hyield
          obtain ⟨rfl, rfl⟩ := h d d' r r' (Option.some.inj htree) (List.append_cancel_left hyield)
          exact ⟨rfl, rfl⟩

theorem determined_name (text : String) : Determined ident (fun text => [.name text]) text := by
  intro text' r r' htree hyield
  exact ⟨ident_injective htree, (List.cons.inj hyield).2⟩

theorem TParam.determined (d : TParam) : Determined TParam.tree TParam.yield d := by
  obtain ⟨name, bound⟩ := d
  rintro ⟨name', bound'⟩ r r' htree hyield
  obtain ⟨hname, hbound⟩ := TypeParamDecl.mk.inj htree
  obtain rfl := ident_injective hname
  obtain ⟨rfl, rfl⟩ := determined_optional determined_name bound bound' r r' hbound
    (List.cons.inj hyield).2
  exact ⟨rfl, rfl⟩

/-- Type parameters are determined where no bracket follows. -/
theorem TParam.list_determined {ds ds' : Option (Items TParam)} {r r' : List Terminal}
    (hr : headToken r ≠ .lss) (hr' : headToken r' ≠ .lss) (htree : listTree ds = listTree ds')
    (hyield : listYield ds ++ r = listYield ds' ++ r') : ds = ds' ∧ r = r' := by
  cases ds with
  | none =>
      cases ds' with
      | none => exact ⟨rfl, hyield⟩
      | some ds' =>
          obtain rfl : r = listYield (some ds') ++ r' := hyield
          exact absurd rfl hr
  | some ds =>
      cases ds' with
      | none =>
          obtain rfl : r' = listYield (some ds) ++ r := hyield.symm
          exact absurd rfl hr'
      | some ds' =>
          simp only [listYield, optional, List.cons_append, List.nil_append, List.append_assoc,
            List.cons.injEq, true_and] at hyield
          obtain ⟨rfl, hrest⟩ := Items.determined (fun d _ => d.determined)
            (fun h => Token.noConfusion h) (fun h => Token.noConfusion h) htree hyield
          exact ⟨rfl, (List.cons.inj hrest).2⟩

theorem Field.determined (d : Field) : Determined Field.tree Field.yield d := by
  obtain ⟨name, type⟩ := d
  rintro ⟨name', type'⟩ r r' htree hyield
  obtain ⟨hname, htype⟩ := FieldDecl.mk.inj htree
  obtain rfl := ident_injective hname
  obtain ⟨rfl, rfl⟩ := type.determined type' r r' htype (List.cons.inj (List.cons.inj hyield).2).2
  exact ⟨rfl, rfl⟩

/-- Parameters are determined up to their closing parenthesis. -/
theorem Params.determined {member : Bool} {ds ds' : Params member} {r r' : List Terminal}
    (hfields : ds.fields = ds'.fields) (hyield : ds.yield ++ .mark .rparen :: r =
      ds'.yield ++ .mark .rparen :: r') : ds = ds' ∧ r = r' := by
  have hlist : ∀ {ds ds' : Items Field}, ds.toList.map Field.tree = ds'.toList.map Field.tree →
      ds.yield Field.yield ++ .mark .rparen :: r = ds'.yield Field.yield ++ .mark .rparen :: r' →
      ds = ds' ∧ r = r' := by
    intro ds ds' htree hyield
    obtain ⟨rfl, hrest⟩ := Items.determined (fun d _ => d.determined)
      (fun h => Token.noConfusion h) (fun h => Token.noConfusion h) htree hyield
    exact ⟨rfl, (List.cons.inj hrest).2⟩
  cases ds with
  | plain ps =>
      cases ds' with
      | plain ps' =>
          obtain ⟨rfl, rfl⟩ := hlist hfields hyield
          exact ⟨rfl, rfl⟩
  | receiver self =>
      cases ds' with
      | receiver self' =>
          obtain ⟨hself, hrest⟩ := List.cons.inj hyield
          exact ⟨congrArg receiver (Terminal.name.inj hself), (List.cons.inj hrest).2⟩
      | receiverWith self' ps' => simp [Params.yield] at hyield
  | receiverWith self ps =>
      cases ds' with
      | receiver self' => simp [Params.yield] at hyield
      | receiverWith self' ps' =>
          obtain ⟨hself, hrest⟩ := List.cons.inj hyield
          obtain rfl := Terminal.name.inj hself
          obtain ⟨rfl, rfl⟩ := hlist hfields (List.cons.inj hrest).2
          exact ⟨rfl, rfl⟩

theorem Header.determined {member : Bool} (d : Header member) :
    Determined Header.tree Header.yield d := by
  obtain ⟨name, tparams, params, result⟩ := d
  rintro ⟨name', tparams', params', result'⟩ r r' htree hyield
  obtain ⟨_, hname, _, htparams, hparams, hresult, _⟩ := FuncDecl.mk.inj htree
  obtain rfl := ident_injective hname
  simp only [Header.yield, List.cons_append, List.append_assoc, List.cons.injEq, true_and]
    at hyield
  obtain ⟨rfl, hrest⟩ := TParam.list_determined (fun h => Token.noConfusion h)
    (fun h => Token.noConfusion h) htparams hyield
  obtain ⟨rfl, hafter⟩ := Params.determined hparams (List.cons.inj hrest).2
  obtain ⟨rfl, rfl⟩ := determined_optional Ty.determined result result' r r' hresult hafter
  exact ⟨rfl, rfl⟩

theorem Func.determined {member : Bool} (d : Func member) :
    Determined Func.tree Func.yield d := by
  obtain ⟨header, body⟩ := d
  rintro ⟨header', body'⟩ r r' htree hyield
  have hheader : header.tree = header'.tree :=
    congrArg (fun f : FuncDecl => { f with body := none }) htree
  have hbody : body.tree = body'.tree := Option.some.inj (congrArg FuncDecl.body htree)
  rw [Func.yield, Func.yield, List.append_assoc, List.append_assoc] at hyield
  obtain ⟨rfl, hrest⟩ := header.determined header' _ _ hheader hyield
  obtain ⟨rfl, rfl⟩ := body.determined body' r r' hbody hrest
  exact ⟨rfl, rfl⟩

/-- A sequence is determined if its parts are. -/
theorem determined_flatMap {γ δ : Type} {tree : δ → γ} {y : δ → List Terminal}
    (h : ∀ d, Determined tree y d) (ds : List δ) :
    Determined (List.map tree) (List.flatMap y) ds := by
  induction ds with
  | nil =>
      intro ds' r r' htree hyield
      cases ds' with
      | nil => exact ⟨rfl, hyield⟩
      | cons => cases htree
  | cons d ds ih =>
      intro ds' r r' htree hyield
      cases ds' with
      | nil => cases htree
      | cons d' ds' =>
          obtain ⟨hd, hds⟩ := List.cons.inj htree
          rw [List.flatMap_cons, List.flatMap_cons, List.append_assoc, List.append_assoc] at hyield
          obtain ⟨rfl, hrest⟩ := h d d' _ _ hd hyield
          obtain ⟨rfl, rfl⟩ := ih ds' r r' hds hrest
          exact ⟨rfl, rfl⟩

/-- A declaration is determined where no semicolon follows. -/
theorem Decl.determined {d d' : Decl} {r r' : List Terminal} (hr : headToken r ≠ .semi)
    (hr' : headToken r' ≠ .semi) (htree : d.tree = d'.tree)
    (hyield : d.yield ++ r = d'.yield ++ r') : d = d' ∧ r = r' := by
  cases d with
  | cls name tparams parent fields methods =>
      cases d' with
      | cls name' tparams' parent' fields' methods' =>
          obtain ⟨_, hname, htparams, hparent, hfields, hmethods⟩ :=
            ClassDecl.mk.inj (ClassLang.Decl.cls.inj htree)
          obtain rfl := ident_injective hname
          -- the parent or the opening brace follows the type parameters, a method or the closing
          -- brace the fields
          have hbody : ∀ (parent : Option String) (w : List Terminal),
              headToken (optional [.mark .colon] (fun p => [.name p]) parent ++
                .mark .lbrace :: w) ≠ .lss := by
            intro parent w
            cases parent <;> exact fun h => Token.noConfusion h
          have hmethod : ∀ (methods : List (Func true)) (w : List Terminal),
              headToken (methods.flatMap Func.yield ++ .mark .rbrace :: w) ≠ .comma := by
            intro methods w
            cases methods <;> exact fun h => Token.noConfusion h
          simp only [Decl.yield, List.cons_append, List.append_assoc, List.cons.injEq, true_and,
            List.nil_append] at hyield
          obtain ⟨rfl, hrest⟩ := TParam.list_determined (hbody _ _) (hbody _ _) htparams hyield
          obtain ⟨rfl, hopen⟩ := determined_optional determined_name parent parent' _ _ hparent
            hrest
          obtain ⟨rfl, hmore⟩ := Items.determined (fun d _ => d.determined) (hmethod _ _)
            (hmethod _ _) hfields (List.cons.inj hopen).2
          obtain ⟨rfl, hclose⟩ := determined_flatMap Func.determined methods methods' _ _ hmethods
            hmore
          exact ⟨rfl, (List.cons.inj hclose).2⟩
      | _ => cases htree
  | bound name methods =>
      cases d' with
      | bound name' methods' =>
          obtain ⟨_, hname, hmethods⟩ := BoundDecl.mk.inj (ClassLang.Decl.bound.inj htree)
          obtain rfl := ident_injective hname
          have hmethod : ∀ d : Header true,
              Determined Header.tree (fun m => m.yield ++ [.mark .semi]) d := by
            intro d d' r r' htree hyield
            rw [List.append_assoc, List.append_assoc] at hyield
            obtain ⟨rfl, hrest⟩ := d.determined d' _ _ htree hyield
            exact ⟨rfl, (List.cons.inj hrest).2⟩
          simp only [Decl.yield, List.cons_append, List.append_assoc, List.cons.injEq, true_and,
            List.nil_append] at hyield
          obtain ⟨rfl, hrest⟩ := determined_flatMap hmethod methods methods' _ _ hmethods hyield
          exact ⟨rfl, (List.cons.inj hrest).2⟩
      | _ => cases htree
  | func f =>
      cases d' with
      | func f' =>
          obtain ⟨rfl, rfl⟩ := f.determined f' r r' (ClassLang.Decl.func.inj htree) hyield
          exact ⟨rfl, rfl⟩
      | host header semi =>
          exact Bool.noConfusion (congrArg FuncDecl.host (ClassLang.Decl.func.inj htree))
      | _ => cases htree
  | host header semi =>
      cases d' with
      | func f =>
          exact Bool.noConfusion (congrArg FuncDecl.host (ClassLang.Decl.func.inj htree))
      | host header' semi' =>
          have hheader : header.tree = header'.tree :=
            congrArg (fun f : FuncDecl => { f with host := false }) (ClassLang.Decl.func.inj htree)
          simp only [Decl.yield, List.cons_append, List.append_assoc, List.cons.injEq, true_and]
            at hyield
          obtain ⟨rfl, hrest⟩ := header.determined header' _ _ hheader hyield
          cases semi <;> cases semi'
          · exact ⟨rfl, hrest⟩
          · exact absurd (congrArg headToken hrest) hr
          · exact absurd (congrArg headToken hrest.symm) hr'
          · exact ⟨rfl, (List.cons.inj hrest).2⟩
      | _ => cases htree
  | const name type value =>
      cases d' with
      | const name' type' value' =>
          obtain ⟨_, hname, htype, hvalue⟩ := ConstDecl.mk.inj (ClassLang.Decl.const.inj htree)
          obtain rfl := ident_injective hname
          simp only [Decl.yield, List.cons_append, List.append_assoc, List.cons.injEq, true_and]
            at hyield
          obtain ⟨rfl, hrest⟩ := type.determined type' _ _ htype hyield
          obtain ⟨rfl, hclose⟩ := value.determined value' _ _ hvalue (List.cons.inj hrest).2
          exact ⟨rfl, (List.cons.inj hclose).2⟩
      | _ => cases htree

theorem head_decls_ne_semi (ds : List Decl) : headToken (ds.flatMap Decl.yield) ≠ .semi := by
  cases ds with
  | nil => decide
  | cons d ds => cases d <;> exact fun h => Token.noConfusion h

theorem Decl.determinedAll : ∀ {ds ds' : List Decl}, ds.map Decl.tree = ds'.map Decl.tree →
    ds.flatMap Decl.yield = ds'.flatMap Decl.yield → ds = ds'
  | [], [], _, _ => rfl
  | [], _ :: _, htree, _ => by cases htree
  | _ :: _, [], htree, _ => by cases htree
  | d :: ds, d' :: ds', htree, hyield => by
      obtain ⟨hd, hds⟩ := List.cons.inj htree
      rw [List.flatMap_cons, List.flatMap_cons] at hyield
      obtain ⟨rfl, hrest⟩ := Decl.determined (head_decls_ne_semi ds) (head_decls_ne_semi ds') hd
        hyield
      rw [Decl.determinedAll hds hrest]

/-- A word and a tree have at most one derivation between them. -/
theorem Derivation.eq_of_tree_eq {name : String} {d d' : Derivation}
    (htree : d.tree name = d'.tree name) (hyield : d.yield = d'.yield) : d = d' :=
  congrArg Derivation.mk (Decl.determinedAll (File.mk.inj htree).2.2 hyield)

end Grammar

end ClassLang

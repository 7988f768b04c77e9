import ClassLang.Proofs.Tree.Grammar

/-!
Which terminals derivations start with, and which may follow them. One terminal is enough
to tell the productions apart and to see where a derivation ends.
-/

namespace ClassLang

namespace Token

/-- Whether a token is a terminal of its own. -/
def isMark : Token → Bool
  | .eof | .name | .literal => false
  | _ => true

/-- Whether an expression can start with a token. -/
def startsExpr : Token → Bool
  | .name | .literal | .lparen | .not | .sub => true
  | _ => false

/-- Whether a statement can start with a token. -/
def startsStmt : Token → Bool
  | .lbrace | .kwLet | .kwIf | .kwWhile | .kwFor | .kwReturn | .semi => true
  | t => t.startsExpr

end Token

namespace Grammar

theorem eq_mark_cons {w : List Terminal} {t : Token} (h : headToken w = t)
    (ht : t.isMark = true) : w = .mark t :: w.tail := by
  subst h
  cases w with
  | nil => cases ht
  | cons x w =>
      cases x with
      | mark t => rfl
      | _ => cases ht

/-! Operators -/

theorem precedence_add_level (o : BinaryOp) : o.precedence + level o = 7 := by
  cases o <;> rfl

theorem ofToken?_token (o : BinaryOp) : BinaryOp.ofToken? o.token = some o := by
  cases o <;> rfl

theorem unaryOfToken?_token (o : UnaryOp) : UnaryOp.ofToken? o.token = some o := by
  cases o <;> rfl

theorem token_of_ofToken? {t : Token} {o : BinaryOp} (h : BinaryOp.ofToken? t = some o) :
    t = o.token ∧ t.isMark = true := by
  cases t <;> cases h <;> exact ⟨rfl, rfl⟩

theorem unary_of_ofToken? {t : Token} {o : UnaryOp} (h : UnaryOp.ofToken? t = some o) :
    t = o.token ∧ t.isMark = true := by
  cases t <;> cases h <;> exact ⟨rfl, rfl⟩

/-- No operator of a level below `n` comes first. -/
def From (n : Nat) (w : List Terminal) : Prop :=
  ∀ o, BinaryOp.ofToken? (headToken w) = some o → n ≤ level o

theorem From.mono {k n : Nat} {w : List Terminal} (h : From n w) (hk : k ≤ n) : From k w :=
  fun o ho => Nat.le_trans hk (h o ho)

theorem from_mark {n : Nat} {o : BinaryOp} {w : List Terminal} (h : n ≤ level o) :
    From n (.mark o.token :: w) := by
  intro o' ho'
  obtain rfl : o = o' := Option.some.inj ((ofToken?_token o).symm.trans ho')
  exact h

/-- What may follow an expression with operators of the levels below `n`. -/
structure After (n : Nat) (w : List Terminal) : Prop where
  op : From n w
  lparen : headToken w ≠ .lparen
  dot : headToken w ≠ .dot
  colon : headToken w ≠ .colon

theorem After.mono {k n : Nat} {w : List Terminal} (h : After n w) (hk : k ≤ n) : After k w :=
  { h with op := h.op.mono hk }

theorem after_op {n : Nat} {o : BinaryOp} {w : List Terminal} (h : n ≤ level o) :
    After n (.mark o.token :: w) := by
  refine ⟨from_mark h, ?_, ?_, ?_⟩
  all_goals cases o <;> exact fun h => Token.noConfusion h

/-- Any token that neither is an operator nor goes on with an operand may follow. -/
theorem after_mark {n : Nat} {t : Token} {w : List Terminal}
    (h : BinaryOp.ofToken? t = none ∧ t ≠ .lparen ∧ t ≠ .dot ∧ t ≠ .colon) :
    After n (.mark t :: w) := by
  refine ⟨fun o ho => ?_, h.2.1, h.2.2.1, h.2.2.2⟩
  exact absurd (h.1.symm.trans ho) (by simp)

/-- An expression is one of every looser level. -/
theorem exists_binary_of_le {k n : Nat} (h : k ≤ n) (d : Binary k) :
    ∃ d' : Binary n, d'.tree = d.tree ∧ d'.yield = d.yield := by
  induction h with
  | refl => exact ⟨d, rfl, rfl⟩
  | step _ ih =>
      obtain ⟨d', htree, hyield⟩ := ih
      exact ⟨.lift d', htree, hyield⟩

/-! First tokens -/

theorem Operand.starts (d : Operand) (r : List Terminal) :
    headToken (d.yield ++ r) = .name ∨ headToken (d.yield ++ r) = .literal ∨
      headToken (d.yield ++ r) = .lparen := by
  cases d <;> simp [Operand.yield, headToken, Terminal.token]

theorem Primary.starts : ∀ (d : Primary) (r : List Terminal),
    headToken (d.yield ++ r) = .name ∨ headToken (d.yield ++ r) = .literal ∨
      headToken (d.yield ++ r) = .lparen
  | .operand x, r => x.starts r
  | .call fn, r => by
      rw [Primary.yield, List.append_assoc]
      exact fn.starts _
  | .callWith fn args, r => by
      rw [Primary.yield, List.append_assoc]
      exact fn.starts _
  | .select x sel, r => by
      rw [Primary.yield, List.append_assoc]
      exact x.starts _

theorem Unary.starts (d : Unary) (r : List Terminal) :
    (headToken (d.yield ++ r)).startsExpr = true := by
  cases d with
  | primary x =>
      rw [Unary.yield]
      rcases x.starts r with h | h | h <;> rw [h] <;> rfl
  | op o x => cases o <;> rfl

theorem Binary.starts : ∀ {n : Nat} (d : Binary n) (r : List Terminal),
    (headToken (d.yield ++ r)).startsExpr = true
  | _, .unary x, r => x.starts r
  | _, .lift x, r => x.starts r
  | _, .op o h x y, r => by
      rw [Binary.yield, List.append_assoc]
      exact x.starts _

theorem Stmt.starts (d : Stmt) (r : List Terminal) :
    (headToken (d.yield ++ r)).startsStmt = true := by
  have hexpr : ∀ t : Token, t.startsExpr = true → t.startsStmt = true := by
    intro t ht
    cases t <;> first | rfl | cases ht
  cases d with
  | expr x =>
      rw [Stmt.yield, List.append_assoc]
      exact hexpr _ (x.starts _)
  | assign lhs rhs =>
      rw [Stmt.yield, List.append_assoc]
      exact hexpr _ (lhs.starts _)
  | block body =>
      cases body
      rfl
  | ifElse i =>
      cases i
      rfl
  | _ => rfl

end Grammar

end ClassLang

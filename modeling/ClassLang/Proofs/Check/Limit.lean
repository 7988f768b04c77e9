import ClassLang.Proofs.Check.Session
import ClassLang.Check.Unit

/-!
The limit on errors. A check that keeps `n` errors at most does what a check without a limit does
until an error is dropped. From then on it may stop early, and the other one can only find more
errors, which would have been dropped as well. So the limit cuts off what is found and changes
nothing else.
-/

namespace ClassLang

namespace Collector

theorem length_found (c : Collector) : c.found.length = c.size := List.length_reverse

/-- Without a limit every error is kept. -/
theorem add_of_unlimited {u : Collector} (h : u.limit = none) (d : Diagnostic) :
    (u.add d).found = u.found ++ [d] ∧ (u.add d).full = u.full := by
  simp [add, atLimit, h, found]

/-- `c` is what a collector that keeps `n` errors makes of the errors that `u` has, which keeps
all. -/
structure Cuts (n : Nat) (u c : Collector) : Prop where
  unlimited : u.limit = none
  whole : u.full = false
  limited : c.limit = some n
  found : c.found = u.found.take n
  full : c.full = true ↔ n < u.found.length

namespace Cuts

variable {n : Nat} {u u' c c' : Collector}

theorem start (n : Nat) : Cuts n { limit := none } { limit := some n } :=
  ⟨rfl, rfl, rfl, by simp [Collector.found], by simp [Collector.found]⟩

theorem atLimit_iff (h : Cuts n u c) : c.atLimit = true ↔ n ≤ u.found.length := by
  simp only [atLimit, h.limited, decide_eq_true_eq, ← length_found, h.found, List.length_take]
  omega

theorem add (h : Cuts n u c) (d : Diagnostic) : Cuts n (u.add d) (c.add d) := by
  obtain ⟨hfound, hwhole⟩ := add_of_unlimited h.unlimited d
  have hsize : (u.add d).found.length = u.found.length + 1 := by simp [hfound]
  by_cases hat : n ≤ u.found.length
  · have hdrop : c.add d = { c with full := true } := if_pos (h.atLimit_iff.2 hat)
    refine ⟨(limit_add u d).trans h.unlimited, hwhole.trans h.whole,
      (limit_add c d).trans h.limited, ?_, ?_⟩
    · rw [hdrop, hfound, List.take_append_of_le_length hat]
      exact h.found
    · rw [hdrop, hsize]
      exact iff_of_true rfl (Nat.lt_succ_of_le hat)
  · have hkeep : c.add d = { c with kept := d :: c.kept } :=
      if_neg fun hlimit => hat (h.atLimit_iff.1 hlimit)
    have hall : c.found = u.found := h.found.trans (List.take_of_length_le (by omega))
    refine ⟨(limit_add u d).trans h.unlimited, hwhole.trans h.whole,
      (limit_add c d).trans h.limited, ?_, ?_⟩
    · rw [hkeep, List.take_of_length_le (by omega), hfound, ← hall]
      exact List.reverse_cons
    · rw [hkeep, hsize]
      exact h.full.trans (by omega)

theorem addAll (h : Cuts n u c) (ds : List Diagnostic) :
    Cuts n (ds.foldl Collector.add u) (ds.foldl Collector.add c) := by
  induction ds generalizing u c with
  | nil => exact h
  | cons d ds ih => exact ih (h.add d)

/-- Once an error has been dropped, what one finds later changes nothing. -/
theorem follows_left (h : Cuts n u c) (hfull : c.full = true) (hu : u.Follows u') :
    Cuts n u' c := by
  obtain ⟨ds, rfl⟩ := hu
  induction ds generalizing u with
  | nil => exact h
  | cons d ds ih =>
      have hlength := h.full.1 hfull
      obtain ⟨hfound, hwhole⟩ := add_of_unlimited h.unlimited d
      refine ih ⟨(limit_add u d).trans h.unlimited, hwhole.trans h.whole, h.limited, ?_, ?_⟩
      · rw [hfound, List.take_append_of_le_length (Nat.le_of_lt hlength)]
        exact h.found
      · rw [hfound, List.length_append]
        exact iff_of_true hfull (Nat.lt_add_right _ hlength)

/-- Once an error has been dropped, all later ones are. -/
theorem follows_right (h : Cuts n u c) (hfull : c.full = true) (hc : c.Follows c') :
    Cuts n u c' ∧ c'.full = true := by
  obtain ⟨ds, rfl⟩ := hc
  have hadd (d : Diagnostic) : c.add d = c := by
    rw [Collector.add, if_pos (h.atLimit_iff.2 (Nat.le_of_lt (h.full.1 hfull))), ← hfull]
  have hstays : ds.foldl Collector.add c = c := by
    induction ds with
    | nil => rfl
    | cons d ds ih => rw [List.foldl_cons, hadd, ih]
  rw [hstays]
  exact ⟨h, hfull⟩

/-- If at least one error is kept, there is one with the limit exactly if there is one without. -/
theorem failed (h : Cuts n u c) (hn : 0 < n) : c.failed = u.failed := by
  have hempty (x : Collector) : x.failed = !x.found.isEmpty := by
    rw [Collector.failed, Collector.found, List.isEmpty_reverse]
  rw [hempty, hempty, h.found]
  cases u.found with
  | nil => simp
  | cons d ds => cases n with
    | zero => exact absurd hn (Nat.lt_irrefl 0)
    | succ n => rfl

end Cuts

end Collector

namespace Check

variable {α β : Type} {n : Nat}

/-- `s` is what a limit of `n` errors makes of the session `u`. -/
structure Session.Cuts (n : Nat) (u s : Session) : Prop where
  errors : Collector.Cuts n u.errors s.errors
  same : s.errors.full = false → s.duties = u.duties ∧ s.consts = u.consts

/-- The limit of `n` errors cuts off what `m` finds, and unless an error is dropped `m` does the same
with it and without. -/
structure Limited (n : Nat) (m : Check α) : Prop where
  follows : ∀ s : Session, s.errors.Follows (m.run s).2.errors
  cuts : ∀ u s : Session, u.Cuts n s → (m.run u).2.Cuts n (m.run s).2 ∧
    ((m.run s).2.errors.full = false → (m.run s).1 = (m.run u).1)

namespace Limited

variable {m : Check α} {f : α → Check β}

theorem pure {a : α} : Limited n (Pure.pure a : Check α) :=
  ⟨fun s => .refl s.errors, fun _ _ h => ⟨h, fun _ => rfl⟩⟩

/-- Once an error has been dropped, the two go their own ways. -/
theorem apart {m' : Check α} {u s : Session} (hm : Limited n m) (hm' : Limited n m')
    (h : u.Cuts n s) (hfull : s.errors.full = true) :
    (m.run u).2.Cuts n (m'.run s).2 ∧
      ((m'.run s).2.errors.full = false → (m'.run s).1 = (m.run u).1) := by
  have hleft := h.errors.follows_left hfull (hm.follows u)
  obtain ⟨hboth, hfull'⟩ := hleft.follows_right hfull (hm'.follows s)
  have hnever : ¬ (m'.run s).2.errors.full = false := by
    rw [hfull']
    decide
  exact ⟨⟨hboth, fun hnone => absurd hnone hnever⟩, fun hnone => absurd hnone hnever⟩

theorem bind (hm : Limited n m) (hf : ∀ a, Limited n (f a)) : Limited n (m >>= f) := by
  refine ⟨fun s => (hm.follows s).trans ((hf _).follows _), fun u s h => ?_⟩
  obtain ⟨hmiddle, hresult⟩ := hm.cuts u s h
  rw [Watch.Ensures.run_bind, Watch.Ensures.run_bind]
  cases hfull : (m.run s).2.errors.full with
  | false =>
      rw [hresult hfull]
      exact (hf _).cuts _ _ hmiddle
  | true => exact (hf _).apart (hf _) hmiddle hfull

theorem map {g : α → β} (hm : Limited n m) : Limited n (g <$> m) := hm.bind fun _ => .pure

theorem discard (hm : Limited n m) : Limited n (Functor.discard m) := hm.map

theorem reportAll (ds : List Diagnostic) : Limited n (Check.reportAll ds) := by
  refine ⟨fun _ => ⟨ds, rfl⟩, fun u s h => ⟨⟨h.errors.addAll ds, fun hnone => ?_⟩, fun _ => rfl⟩⟩
  refine h.same (Bool.eq_false_iff.2 fun hfull => ?_)
  exact absurd ((h.errors.follows_right hfull ⟨ds, rfl⟩).2.symm.trans hnone) (by decide)

theorem report {kind : ErrorKind} {pos : Pos} {message : String} :
    Limited n (Check.report kind pos message) := reportAll [⟨kind, pos, message⟩]

theorem fail {kind : ErrorKind} {pos : Pos} {message : String} :
    Limited n (Check.fail kind pos message : Check (Option α)) :=
  report.bind fun _ => .pure

/-- A step that changes what is put off and what is folded. -/
theorem change {g : List Duty → List Duty} {k : List (String × Folding) → List (String × Folding)} :
    Limited n (modify fun s : Session => ⟨s.errors, g s.duties, k s.consts⟩) := by
  refine ⟨fun s => .refl s.errors, fun u s h => ⟨⟨h.errors, fun hnone => ?_⟩, fun _ => rfl⟩⟩
  obtain ⟨hduties, hconsts⟩ := h.same hnone
  exact ⟨congrArg g hduties, congrArg k hconsts⟩

/-- A step that depends on what is put off and on what is folded. -/
theorem get {f : Session → Check α} (hf : ∀ s, Limited n (f s))
    (hsame : ∀ u s : Session, s.duties = u.duties ∧ s.consts = u.consts → f s = f u) :
    Limited n (get >>= f) := by
  refine ⟨fun s => (hf s).follows s, fun u s h => ?_⟩
  change ((f u).run u).2.Cuts n ((f s).run s).2 ∧
    (((f s).run s).2.errors.full = false → ((f s).run s).1 = ((f u).run u).1)
  cases hfull : s.errors.full with
  | false =>
      rw [hsame u s (h.same hfull)]
      exact (hf u).cuts u s h
  | true => exact (hf u).apart (hf s) h hfull

/-- A check without a limit never drops an error. -/
theorem full : Limited n Check.full :=
  ⟨fun s => .refl s.errors, fun _ _ h => ⟨h, fun hnone => hnone.trans h.errors.whole.symm⟩⟩

theorem failed (hn : 0 < n) : Limited n Check.failed :=
  ⟨fun s => .refl s.errors, fun _ _ h => ⟨h, fun _ => h.errors.failed hn⟩⟩

theorem putOff {d : List Duty} :
    Limited n (modify fun s : Session => { s with duties := s.duties ++ d }) :=
  change (g := (· ++ d)) (k := id)

theorem keep {name : String} {x : Folding} :
    Limited n (modify fun s : Session => { s with consts := (name, x) :: s.consts }) :=
  change (g := id) (k := ((name, x) :: ·))

end Limited

variable {env : Env} {consts : ConstSource}

/-! Types -/

theorem satisfies_limited {table : Table} {pos : Pos} {ty : Ty} {bound : String} :
    Limited n (satisfies table pos ty bound) := by
  unfold satisfies
  split
  · exact .pure
  split
  · exact .pure
  split <;> exact Limited.report.bind fun _ => .pure

theorem typeArg_limited {pos : Pos} {p : TypeParam} {arg : Ty} :
    Limited n (typeArg env pos p arg) := by
  unfold typeArg
  split
  · exact Limited.report.bind fun _ => .pure
  split
  · exact .pure
  split
  · exact Limited.putOff.bind fun _ => .pure
  · exact satisfies_limited

theorem typeArgs_limited {pos : Pos} {list : List (TypeParam × Ty)} :
    Limited n (typeArgs env pos list) := by
  induction list with
  | nil => exact .pure
  | cons e rest ih => exact typeArg_limited.bind fun _ => ih.bind fun _ => .pure

mutual

theorem type_limited : (t : TypeExpr) → Limited n (type env t)
  | .name id => by
    unfold type
    split
    next => exact .fail
    next => exact .pure
    next => exact .pure
    next =>
      split
      next => split <;> first | exact .fail | exact .pure
      next => exact .fail
    next => exact .fail
    next => exact .fail
  | .apply base args => by
    unfold type
    split
    next =>
      split
      next =>
        split
        next =>
          refine (types_limited args).bind fun _ => ?_
          split
          next => exact .pure
          next =>
            dsimp only
            split
            next => exact .fail
            next =>
              refine typeArgs_limited.bind fun _ => ?_
              split <;> exact .pure
        next => exact .fail
      next => exact .fail
    all_goals exact .fail

theorem types_limited : (ts : List TypeExpr) → Limited n (types env ts)
  | [] => by
    unfold types
    exact .pure
  | t :: rest => by
    unfold types
    refine (type_limited t).bind fun _ => ?_
    split
    next => exact .pure
    next =>
      refine (types_limited rest).bind fun _ => ?_
      split <;> exact .pure

end

theorem varType_limited {t : TypeExpr} : Limited n (varType env t) := by
  unfold varType
  refine (type_limited t).bind fun _ => ?_
  split
  next => exact .pure
  next =>
    split
    · exact .fail
    · exact .pure

/-! Declarations of names -/

theorem declare_limited {s : Scope Symbol} {id : Ident} {sym : Symbol} :
    Limited n (declare s id sym) := by
  unfold declare
  split
  · exact .pure
  · exact Limited.report.bind fun _ => .pure

theorem boundOf_limited {table : Table} {id : Option Ident} : Limited n (boundOf table id) := by
  cases id with
  | none => exact .pure
  | some id =>
      unfold boundOf
      dsimp only
      split
      · exact .pure
      · exact .fail
      · exact .fail

theorem typeParams_limited {table : Table} (s : Scope Symbol)
    (list : List (TypeParamDecl × TypeParam)) : Limited n (typeParams table s list) := by
  induction list generalizing s with
  | nil => exact .pure
  | cons e rest ih =>
      have hbound : Limited n (boundOf table e.1.bound) := boundOf_limited
      unfold typeParams
      dsimp only
      split
      · exact Limited.report.bind fun _ => hbound.bind fun _ => (ih _).bind fun _ => .pure
      · exact hbound.bind fun _ => (ih _).bind fun _ => .pure

theorem params_limited (s : Scope Symbol) (list : List FieldDecl) :
    Limited n (params env s list) := by
  induction list generalizing s with
  | nil => exact .pure
  | cons d rest ih =>
      exact varType_limited.bind fun _ => declare_limited.bind fun _ => (ih _).bind fun _ => .pure

theorem receiver_limited {s : Scope Symbol} {cls : Option ClassInfo} {name : Option Ident} :
    Limited n (receiver s cls name) := by
  unfold receiver
  split
  · exact declare_limited.bind fun _ => .pure
  · exact .pure

theorem header_limited {d : FuncDecl} {cls : Option ClassInfo} : Limited n (header env d cls) := by
  unfold header
  refine (typeParams_limited _ _).bind fun _ => receiver_limited.bind fun _ =>
    (params_limited _ _).bind fun _ => ?_
  dsimp only
  split
  · exact (type_limited _).map.bind fun _ => .pure
  · exact Limited.pure.bind fun _ => .pure

/-! Operands -/

theorem hasValue_limited {x : Operand} : Limited n (hasValue x) := by
  unfold hasValue
  split
  · exact Limited.report.bind fun _ => .pure
  · exact .pure

theorem assignable_limited {table : Table} {x : Operand} {target : Ty} {purpose : String} :
    Limited n (assignable table x target purpose) := by
  unfold assignable
  refine hasValue_limited.bind fun _ => ?_
  split
  · exact .pure
  split
  · exact .pure
  split
  · exact .pure
  dsimp only
  split
  · split
    · exact .pure
    · exact Limited.report.bind fun _ => .pure
  · exact Limited.report.bind fun _ => .pure

theorem assignableAll_limited {table : Table} {list : List (Operand × Ty × String)} :
    Limited n (assignableAll table list) := by
  induction list with
  | nil => exact .pure
  | cons e rest ih => exact assignable_limited.bind fun _ => ih.bind fun _ => .pure

theorem infer_limited {pos : Pos} {what : String} {ps : List TypeParam} {types : List Ty}
    {operands : List Operand} : Limited n (infer env pos what ps types operands) := by
  unfold infer
  split
  · exact .fail
  split
  · exact .fail
  · refine typeArgs_limited.bind fun _ => ?_
    split <;> exact .pure

theorem arguments_limited {pos : Pos} {callee : String} {sig : Signature} {args : List Operand} :
    Limited n (arguments env pos callee sig args) := by
  unfold arguments
  split
  · exact Limited.report.bind fun _ => .pure
  · exact assignableAll_limited

theorem target_limited {x : Operand} {sel : Ident} : Limited n (target env x sel) := by
  unfold target
  dsimp only
  split
  · split
    · exact .fail
    · split
      · exact .pure
      · exact .fail
  · split
    · exact .fail
    · split
      · exact .fail
      · exact .pure

theorem fillField_limited {cls : String} {fields : List Field} {filling : Filling} {key : Ident}
    {value : Option Operand} : Limited n (fillField cls fields filling key value) := by
  unfold fillField
  dsimp only
  split
  · exact Limited.report.bind fun _ => .pure
  split
  · exact Limited.report.bind fun _ => .pure
  split
  · exact .pure
  · exact hasValue_limited.bind fun _ => .pure

/-! Expressions -/

theorem inRange_limited {pos : Pos} {c : Constant} {e : Typed.Expr} :
    Limited n (inRange pos c e) := by
  unfold inRange
  split
  · exact .fail
  · exact .pure

theorem name_limited (hconsts : ∀ c, Limited n (consts c)) {id : Ident} :
    Limited n (name env consts id) := by
  unfold name
  split
  next => exact .fail
  next => split <;> exact .pure
  next => exact .pure
  next =>
    refine (hconsts _).bind fun _ => ?_
    split <;> exact .pure
  all_goals exact .fail

theorem literal_limited {pos : Pos} {kind : LitKind} {text : String} :
    Limited n (literal pos kind text) := by
  unfold literal
  split
  next =>
    split
    · exact .fail
    · exact inRange_limited
  next =>
    split
    · exact .fail
    · exact .pure
  next => exact .pure

theorem unaryOp_limited {pos : Pos} {op : UnaryOp} {x : Operand} :
    Limited n (unaryOp pos op x) := by
  unfold unaryOp
  refine hasValue_limited.bind fun _ => ?_
  split
  · exact .pure
  cases op
  all_goals
    dsimp only
    split
    · exact .fail
    split
    · exact inRange_limited
    · exact .pure

theorem binaryOp_limited {op : BinaryOp} {x y : Operand} : Limited n (binaryOp op x y) := by
  unfold binaryOp
  refine hasValue_limited.bind fun _ => ?_
  split
  · exact .pure
  refine hasValue_limited.bind fun _ => ?_
  split
  · exact .pure
  dsimp only
  split
  · exact .fail
  split
  · exact .fail
  split
  · split
    · exact .fail
    · split
      · exact inRange_limited
      · exact .pure
  · exact .pure

theorem selection_limited {x : Operand} {sel : Ident} : Limited n (selection env x sel) := by
  unfold selection
  refine hasValue_limited.bind fun _ => ?_
  split
  · exact .pure
  dsimp only
  split
  · exact .fail
  split
  · exact .fail
  split
  · exact .pure
  · split <;> exact .fail

theorem funcCall_limited {fn : Ident} {sym : Symbol} {sig : Signature}
    {args : Option (List Operand)} : Limited n (funcCall env fn sym sig args) := by
  unfold funcCall
  split
  · exact .pure
  dsimp only
  split
  all_goals first
    | refine infer_limited.bind fun _ => ?_
    | refine Limited.pure.bind fun _ => ?_
  all_goals
    split
    · exact .pure
    refine arguments_limited.bind fun _ => ?_
    split <;> exact .pure

theorem methodCall_limited {x : Operand} {sel : Ident} {found : CallKind × Method × Signature}
    {args : Option (List Operand)} : Limited n (methodCall env x sel found args) := by
  unfold methodCall
  dsimp only
  split
  · exact .pure
  refine arguments_limited.bind fun _ => ?_
  split <;> exact .pure

theorem initialized_limited {cls : Ident} {sym : Symbol} {c : ClassInfo} {filling : Filling}
    {elems : List (Ident × Typed.Expr)} :
    Limited n (initialized env cls sym c filling elems) := by
  unfold initialized
  dsimp only
  split
  · exact Limited.report.bind fun _ => .pure
  split
  · exact .pure
  split
  all_goals first
    | refine infer_limited.bind fun _ => ?_
    | refine Limited.pure.bind fun _ => ?_
  all_goals
    split
    · exact .pure
    refine assignableAll_limited.bind fun _ => ?_
    split <;> exact .pure

mutual

theorem expr_limited (hconsts : ∀ c, Limited n (consts c)) : (e : Expr) →
    Limited n (expr env consts e)
  | .name id => by
    unfold expr
    exact name_limited hconsts
  | .literal pos kind text => by
    unfold expr
    exact literal_limited
  | .unary pos op x => by
    unfold expr
    refine (operand_limited hconsts x).bind fun _ => ?_
    split
    · exact .pure
    · exact unaryOp_limited
  | .binary op x y => by
    unfold expr
    refine (operand_limited hconsts x).bind fun _ => (operand_limited hconsts y).bind fun _ => ?_
    split
    · exact binaryOp_limited
    · exact hasValue_limited.discard.bind fun _ => .pure
    · exact .pure
  | .call (.name fn) args => by
    unfold expr
    split
    · refine (operands_limited hconsts args).bind fun _ => ?_
      split
      · exact funcCall_limited
      · exact .pure
    · have hargs := (operands_limited hconsts args).discard
      split
      · exact Limited.report.bind fun _ => hargs.bind fun _ => .pure
      · exact Limited.report.bind fun _ => hargs.bind fun _ => .pure
  | .call (.select x sel) args => by
    unfold expr
    have hargs := operands_limited hconsts args
    refine (operand_limited hconsts x).bind fun _ => ?_
    split
    · exact hargs.discard.bind fun _ => .pure
    refine hasValue_limited.bind fun _ => ?_
    split
    · exact hargs.discard.bind fun _ => .pure
    refine target_limited.bind fun _ => ?_
    split
    · exact hargs.discard.bind fun _ => .pure
    · exact hargs.bind fun _ => methodCall_limited
  | .call (.literal ..) args | .call (.unary ..) args | .call (.binary ..) args
  | .call (.call ..) args | .call (.init ..) args | .call (.paren ..) args => by
    unfold expr
    exact Limited.report.bind fun _ => (operands_limited hconsts args).discard.bind fun _ => .pure
  | .select x sel => by
    unfold expr
    refine (operand_limited hconsts x).bind fun _ => ?_
    split
    · exact .pure
    · exact selection_limited
  | .init cls elems => by
    unfold expr
    split
    · split
      · exact (elements_limited hconsts _ _ _ elems).bind fun _ => initialized_limited
      · exact .pure
    all_goals
      exact Limited.report.bind fun _ => (elementValues_limited hconsts elems).bind fun _ => .pure
  | .paren pos x => by
    unfold expr
    refine (expr_limited hconsts x).bind fun _ => ?_
    split <;> exact .pure
termination_by e => (sizeOf e, 0)
decreasing_by
  all_goals
    simp only [Prod.lex_def, Expr.unary.sizeOf_spec, Expr.binary.sizeOf_spec,
      Expr.call.sizeOf_spec, Expr.select.sizeOf_spec, Expr.init.sizeOf_spec, Expr.paren.sizeOf_spec]
    omega

theorem operand_limited (hconsts : ∀ c, Limited n (consts c)) (e : Expr) :
    Limited n (operand env consts e) := by
  unfold operand
  refine (expr_limited hconsts e).bind fun _ => ?_
  split <;> exact .pure
termination_by (sizeOf e, 1)
decreasing_by exact Prod.Lex.right _ Nat.zero_lt_one

theorem operands_limited (hconsts : ∀ c, Limited n (consts c)) : (es : List Expr) →
    Limited n (operands env consts es)
  | [] => by
    unfold operands
    exact .pure
  | e :: rest => by
    unfold operands
    refine (operand_limited hconsts e).bind fun _ => ?_
    dsimp only
    split
    all_goals first
      | refine hasValue_limited.bind fun _ => ?_
      | refine Limited.pure.bind fun _ => ?_
    all_goals
      refine (operands_limited hconsts rest).bind fun _ => ?_
      split <;> exact .pure
termination_by es => (sizeOf es, 0)
decreasing_by all_goals (simp only [Prod.lex_def, List.cons.sizeOf_spec]; omega)

theorem elements_limited (hconsts : ∀ c, Limited n (consts c)) (cls : String)
    (fields : List Field) (filling : Filling) : (es : List (Ident × Expr)) →
    Limited n (elements env consts cls fields filling es)
  | [] => by
    unfold elements
    exact .pure
  | (key, value) :: rest => by
    unfold elements
    exact (operand_limited hconsts value).bind fun _ => fillField_limited.bind fun _ =>
      (elements_limited hconsts cls fields _ rest).bind fun _ => .pure
termination_by es => (sizeOf es, 0)
decreasing_by
  all_goals (simp only [Prod.lex_def, List.cons.sizeOf_spec, Prod.mk.sizeOf_spec]; omega)

theorem elementValues_limited (hconsts : ∀ c, Limited n (consts c)) :
    (es : List (Ident × Expr)) → Limited n (elementValues env consts es)
  | [] => by
    unfold elementValues
    exact .pure
  | (_, value) :: rest => by
    unfold elementValues
    exact (expr_limited hconsts value).discard.bind fun _ => elementValues_limited hconsts rest
termination_by es => (sizeOf es, 0)
decreasing_by
  all_goals (simp only [Prod.lex_def, List.cons.sizeOf_spec, Prod.mk.sizeOf_spec]; omega)

end

/-! Statements -/

section

variable {p : Place} {s : Scope Symbol}

theorem placeOperand_limited (hconsts : ∀ c, Limited n (p.consts c)) {e : Expr} :
    Limited n (p.operand s e) := operand_limited hconsts e

theorem bindStmt_limited (hconsts : ∀ c, Limited n (p.consts c)) {pos : Pos} {name : Ident}
    {type : TypeExpr} {value : Expr} : Limited n (bindStmt p s pos name type value) := by
  unfold bindStmt
  refine varType_limited.bind fun _ => (placeOperand_limited hconsts).bind fun _ => ?_
  dsimp only
  split
  · refine assignable_limited.bind fun _ => ?_
    split <;> exact Limited.pure.bind fun _ => declare_limited.bind fun _ => .pure
  · exact Limited.pure.bind fun _ => declare_limited.bind fun _ => .pure

theorem assignStmt_limited (hconsts : ∀ c, Limited n (p.consts c)) {lhs rhs : Expr} :
    Limited n (assignStmt p s lhs rhs) := by
  unfold assignStmt
  refine (placeOperand_limited hconsts).bind fun _ => (placeOperand_limited hconsts).bind fun _ => ?_
  split
  · exact .pure
  split
  · exact .fail
  split
  · exact .pure
  refine assignable_limited.bind fun _ => ?_
  split <;> exact .pure

theorem exprStmt_limited (hconsts : ∀ c, Limited n (p.consts c)) {e : Expr} :
    Limited n (exprStmt p s e) := by
  unfold exprStmt
  refine (placeOperand_limited hconsts).bind fun _ => ?_
  split
  · exact .pure
  split
  · exact .pure
  · exact .fail

theorem condition_limited (hconsts : ∀ c, Limited n (p.consts c)) {e : Expr} {statement : String} :
    Limited n (condition p s e statement) := by
  unfold condition
  refine (placeOperand_limited hconsts).bind fun _ => ?_
  split
  · exact .pure
  refine hasValue_limited.bind fun _ => ?_
  split
  · exact .pure
  split
  · exact .pure
  · exact .fail

theorem loopBound_limited (hconsts : ∀ c, Limited n (p.consts c)) {e : Expr} :
    Limited n (loopBound p s e) := by
  unfold loopBound
  refine (placeOperand_limited hconsts).bind fun _ => ?_
  split
  · exact .pure
  refine hasValue_limited.bind fun _ => ?_
  split
  · exact .pure
  split
  · exact .pure
  · exact .fail

theorem returnStmt_limited (hconsts : ∀ c, Limited n (p.consts c)) {pos : Pos}
    {result : Option Expr} : Limited n (returnStmt p s pos result) := by
  unfold returnStmt
  split
  · split
    · exact .pure
    · exact .fail
  refine (placeOperand_limited hconsts).bind fun _ => ?_
  split
  · exact .pure
  split
  · exact .fail
  refine assignable_limited.bind fun _ => ?_
  split <;> exact .pure

end

mutual

theorem stmt_limited {p : Place} (hconsts : ∀ c, Limited n (p.consts c)) (s : Scope Symbol) :
    (st : Stmt) → Limited n (stmt p s st)
  | .empty pos => by
    unfold stmt
    exact .pure
  | .expr x => by
    unfold stmt
    exact (exprStmt_limited hconsts).bind fun _ => .pure
  | .bind pos name type value => by
    unfold stmt
    exact bindStmt_limited hconsts
  | .assign lhs rhs => by
    unfold stmt
    exact (assignStmt_limited hconsts).bind fun _ => .pure
  | .block body => by
    unfold stmt
    exact (block_limited hconsts s body).bind fun _ => .pure
  | .ifElse _ cond body other => by
    unfold stmt
    refine (condition_limited hconsts).bind fun _ => (block_limited hconsts _ body).bind fun _ =>
      (alternative_limited hconsts _ other).bind fun _ => ?_
    dsimp only
    split <;> exact .pure
  | .whileLoop _ cond body => by
    unfold stmt
    refine (condition_limited hconsts).bind fun _ => (block_limited hconsts _ body).bind fun _ => ?_
    dsimp only
    split <;> exact .pure
  | .forLoop pos var range body => by
    unfold stmt
    have hinner : ∀ c, Limited n ((p.enter s).consts c) := hconsts
    refine (loopBound_limited hconsts).bind fun _ => (loopBound_limited hconsts).bind fun _ =>
      declare_limited.bind fun _ => (block_limited hinner _ body).bind fun _ => ?_
    dsimp only
    split <;> exact .pure
  | .ret pos result => by
    unfold stmt
    exact (returnStmt_limited hconsts).bind fun _ => .pure

theorem alternative_limited {p : Place} (hconsts : ∀ c, Limited n (p.consts c))
    (s : Scope Symbol) : (other : Option Stmt) → Limited n (alternative p s other)
  | none => by
    unfold alternative
    exact .pure
  | some st => by
    unfold alternative
    exact (stmt_limited hconsts s st).bind fun _ => .pure

theorem block_limited {p : Place} (hconsts : ∀ c, Limited n (p.consts c)) (s : Scope Symbol) :
    (b : Block) → Limited n (block p s b)
  | .mk _ list _ => by
    unfold block
    have hinner : ∀ c, Limited n ((p.enter s).consts c) := hconsts
    exact (stmts_limited hinner _ list).bind fun _ => .pure

theorem stmts_limited {p : Place} (hconsts : ∀ c, Limited n (p.consts c)) (s : Scope Symbol) :
    (list : List Stmt) → Limited n (stmts p s list)
  | [] => by
    unfold stmts
    exact .pure
  | st :: rest => by
    unfold stmts
    refine Limited.full.bind fun _ => ?_
    split
    · exact .pure
    refine (stmt_limited hconsts s st).bind fun _ => (stmts_limited hconsts _ rest).bind fun _ => ?_
    dsimp only
    split <;> exact .pure

end

theorem body_limited {p : Place} (hconsts : ∀ c, Limited n (p.consts c)) {s : Scope Symbol}
    {name : String} {b : Block} : Limited n (body p s name b) := by
  unfold body
  refine (stmts_limited hconsts s b.stmts).bind fun _ => ?_
  dsimp only
  split
  · exact Limited.report.bind fun _ => .pure
  · exact .pure

end Check

end ClassLang

import ClassLang.Tree.Parse

/-!
Runs of the parser. Whatever a parser function does is a sequence of small steps: a
fault is reported, the next lexeme becomes the current one, or the text is at its end.
More fuel does not change a run that has a result.
-/

namespace ClassLang

namespace Parser

/-- Nothing was reported. -/
def Clean (p : Parser) : Prop := p.reports = [] ∧ p.aborted = false

/-- `q` is reached from `p` by reports and by moves along the lexemes, whose lexical faults are
reported before. -/
inductive Steps (p : Parser) : Parser → Prop
  | refl : Steps p p
  | fault {q : Parser} {e : SyntaxError} (h : Steps p q)
      (hmessage : e.message ≠ Parse.abortMessage) : Steps p (Parse.fault q e)
  | move {q : Parser} {l : Lexeme} {rest : List Lexeme} (h : Steps p q)
      (hrest : q.rest = l :: rest) (hfaults : q.Clean → l.faults = []) :
      Steps p { q with current := l, rest }
  | stop {q : Parser} (h : Steps p q) (hrest : q.rest = []) :
      Steps p { q with current := { q.current with token := .eof } }

theorem Steps.trans {p q r : Parser} (h : p.Steps q) (h' : q.Steps r) : p.Steps r := by
  induction h' with
  | refl => exact h
  | fault _ hmessage ih => exact .fault ih hmessage
  | move _ hrest hfaults ih => exact .move ih hrest hfaults
  | stop _ hrest ih => exact .stop ih hrest

end Parser

namespace Parse

variable {α β : Type}

/-! Runs of small programs -/

theorem run_bind {m : Parse α} {f : α → Parse β} {p : Parser} {r : β × Parser} :
    (m >>= f).run p = some r ↔ ∃ a q, m.run p = some (a, q) ∧ (f a).run q = some r := by
  change Option.bind (m.run p) (fun s => (f s.1).run s.2) = some r ↔ _
  simp [Option.bind_eq_some_iff]

theorem run_pure {a b : α} {p q : Parser} :
    (pure a : Parse α).run p = some (b, q) ↔ a = b ∧ p = q := by
  change some (a, p) = some (b, q) ↔ _
  simp

theorem run_failure {p : Parser} {r : α × Parser} :
    (failure : Parse α).run p = some r ↔ False := by
  change (none : Option (α × Parser)) = some r ↔ _
  simp

theorem run_get {p q r : Parser} : (get : Parse Parser).run p = some (q, r) ↔ q = p ∧ r = p := by
  change some (p, p) = some (q, r) ↔ _
  simp [eq_comm]

theorem run_modify {f : Parser → Parser} {p q : Parser} {u : Unit} :
    (modify f : Parse Unit).run p = some (u, q) ↔ f p = q := by
  change some ((), f p) = some (u, q) ↔ _
  simp

theorem run_token {p q : Parser} {t : Token} :
    token.run p = some (t, q) ↔ t = p.current.token ∧ q = p := by
  simp only [token, run_bind, run_get, run_pure]
  grind

theorem run_here {p q : Parser} {x : Pos} :
    here.run p = some (x, q) ↔ x = p.current.pos ∧ q = p := by
  simp only [here, run_bind, run_get, run_pure]
  grind

theorem run_aborted {p q : Parser} {b : Bool} :
    aborted.run p = some (b, q) ↔ b = p.aborted ∧ q = p := by
  simp only [aborted, run_bind, run_get, run_pure]
  grind

theorem run_next {p q : Parser} {u : Unit} : next.run p = some (u, q) ↔ q = advance p := by
  simp only [next, run_modify]
  exact eq_comm

theorem run_report {message : String} {p q : Parser} {u : Unit} :
    (report message).run p = some (u, q) ↔ q = fault p ⟨p.current.pos, message⟩ := by
  simp only [report, run_modify]
  exact eq_comm

theorem run_got_of_eq {p : Parser} {t : Token} (h : p.current.token = t) :
    (got t).run p = some (true, advance p) := by
  refine run_bind.2 ⟨_, p, run_token.2 ⟨rfl, rfl⟩, ?_⟩
  rw [if_pos h]
  exact run_bind.2 ⟨(), _, run_next.2 rfl, run_pure.2 ⟨rfl, rfl⟩⟩

theorem run_got_of_ne {p : Parser} {t : Token} (h : p.current.token ≠ t) :
    (got t).run p = some (false, p) := by
  refine run_bind.2 ⟨_, p, run_token.2 ⟨rfl, rfl⟩, ?_⟩
  rw [if_neg h]
  exact run_pure.2 ⟨rfl, rfl⟩

theorem run_want_of_eq {p : Parser} {t : Token} (h : p.current.token = t) :
    (want t).run p = some ((), advance p) :=
  run_bind.2 ⟨true, _, run_got_of_eq h, run_pure.2 ⟨rfl, rfl⟩⟩

theorem run_ident_of_eq {p : Parser} (h : p.current.token = .name) :
    ident.run p = some (⟨p.current.pos, p.current.text⟩, advance p) := by
  refine run_bind.2 ⟨p, p, run_get.2 ⟨rfl, rfl⟩, ?_⟩
  dsimp only
  rw [if_pos h]
  exact run_bind.2 ⟨(), _, run_next.2 rfl, run_pure.2 ⟨rfl, rfl⟩⟩

/-! Following a run -/

/-- Where `m` has a result, `m'` has the same, and it is reached by steps. -/
def Follows (m m' : Parse α) : Prop :=
  ∀ p a q, m.run p = some (a, q) → m'.run p = some (a, q) ∧ p.Steps q

/-- What `m` does is a sequence of steps. -/
abbrev Walks (m : Parse α) : Prop := Follows m m

namespace Follows

variable {m m' : Parse α}

theorem steps {p q : Parser} {a : α} (h : Follows m m') (hrun : m.run p = some (a, q)) :
    p.Steps q := (h p a q hrun).2

theorem failure : Follows (failure : Parse α) m' := by
  intro p a q hrun
  exact (run_failure.1 hrun).elim

theorem pure (a : α) : Walks (Pure.pure a : Parse α) := by
  intro p b q hrun
  obtain ⟨rfl, rfl⟩ := run_pure.1 hrun
  exact ⟨hrun, .refl⟩

theorem bind {f f' : α → Parse β} (hm : Follows m m') (hf : ∀ a, Follows (f a) (f' a)) :
    Follows (m >>= f) (m' >>= f') := by
  intro p b r hrun
  obtain ⟨a, q, hfirst, hrest⟩ := run_bind.1 hrun
  obtain ⟨hfirst', hsteps⟩ := hm p a q hfirst
  obtain ⟨hrest', hsteps'⟩ := hf a q b r hrest
  exact ⟨run_bind.2 ⟨a, q, hfirst', hrest'⟩, hsteps.trans hsteps'⟩

theorem map {g : α → β} (hm : Follows m m') : Follows (g <$> m) (g <$> m') := by
  simp only [map_eq_pure_bind]
  exact hm.bind fun a => .pure (g a)

theorem ite {c : Prop} [Decidable c] {n n' : Parse α} (hm : Follows m m') (hn : Follows n n') :
    Follows (if c then m else n) (if c then m' else n') := by
  split
  · exact hm
  · exact hn

/-- A choice whose two sides go on in the same way. -/
theorem branch {c : Prop} [Decidable c] {n n' : Parse α} {k k' : α → Parse β}
    (hm : Follows m m') (hn : Follows n n') (hk : ∀ a, Follows (k a) (k' a)) :
    Follows (if c then m >>= k else n >>= k) (if c then m' >>= k' else n' >>= k') :=
  .ite (hm.bind hk) (hn.bind hk)

theorem discard (hm : Follows m m') : Follows (discard m) (discard m') := hm.map

end Follows

/-! Steps of the primitives -/

theorem head_append {x y : String} {c : Char} (h : x.toList.head? = some c) :
    (x ++ y).toList.head? = some c := by
  simp [h]

/-- A text that starts with another letter does not announce that the parser gives up. -/
theorem ne_abortMessage {s : String} {c : Char} (hs : s.toList.head? = some c) (hc : c ≠ 't') :
    s ≠ abortMessage := by
  rintro rfl
  have ht : abortMessage.toList.head? = some 't' := by decide
  exact hc (Option.some.inj (hs.symm.trans ht))

theorem lexFault_ne_abortMessage (f : LexFault) : f.message ≠ abortMessage := by
  cases f with
  | unexpected c => exact ne_abortMessage (head_append rfl) (by decide : 'u' ≠ 't')
  | badEscape c => exact ne_abortMessage (head_append rfl) (by decide : 'u' ≠ 't')
  | _ => decide

theorem steps_foldl_fault (es : List LexError) {p q : Parser} (h : p.Steps q) :
    p.Steps (es.foldl (fun p e => fault p ⟨e.pos, e.fault.message⟩) q) := by
  induction es generalizing q with
  | nil => exact h
  | cons e rest ih => exact ih (.fault h (lexFault_ne_abortMessage e.fault))

/-- What a report does to the parser: nothing once it has given up, and else it is the last
one or it is not. -/
theorem fault_induction {motive : Parser → Prop} {p : Parser} {e : SyntaxError}
    (haborted : p.aborted = true → motive p)
    (hmore : p.aborted = false → p.count + 1 < maxErrors → motive { p with
      count := p.count + 1
      first := if p.count = 0 then some e else p.first
      reports := e :: p.reports })
    (hlast : p.aborted = false → maxErrors ≤ p.count + 1 → motive { p with
      count := p.count + 1
      first := if p.count = 0 then some e else p.first
      reports := ⟨e.pos, abortMessage⟩ :: e :: p.reports
      aborted := true
      current := { p.current with token := .eof } }) : motive (fault p e) := by
  cases h : p.aborted with
  | true => simpa [fault, h] using haborted h
  | false =>
      rcases Nat.lt_or_ge (p.count + 1) maxErrors with hcount | hcount
      · simpa [fault, h, hcount] using hmore h hcount
      · simpa [fault, h, Nat.not_lt.2 hcount] using hlast h hcount

theorem not_clean_fault (p : Parser) (e : SyntaxError) : ¬ (fault p e).Clean := by
  refine fault_induction (motive := fun q => ¬ q.Clean) ?_ ?_ ?_
  · intro haborted hclean
    simp [hclean.2] at haborted
  · intro _ _ hclean
    exact List.cons_ne_nil _ _ hclean.1
  · intro _ _ hclean
    exact List.cons_ne_nil _ _ hclean.1

theorem rest_fault (p : Parser) (e : SyntaxError) : (fault p e).rest = p.rest := by
  refine fault_induction (motive := fun q => q.rest = p.rest) ?_ ?_ ?_
  · intro _; rfl
  · intro _ _; rfl
  · intro _ _; rfl

theorem rest_foldl_fault (es : List LexError) (p : Parser) :
    (es.foldl (fun p e => fault p ⟨e.pos, e.fault.message⟩) p).rest = p.rest := by
  induction es generalizing p with
  | nil => rfl
  | cons e rest ih => rw [List.foldl_cons, ih, rest_fault]

theorem clean_foldl_fault {es : List LexError} {p : Parser}
    (h : (es.foldl (fun p e => fault p ⟨e.pos, e.fault.message⟩) p).Clean) : es = [] := by
  induction es generalizing p with
  | nil => rfl
  | cons e rest ih =>
      obtain rfl := ih h
      exact absurd h (not_clean_fault p _)

theorem steps_advance (p : Parser) : p.Steps (advance p) := by
  unfold advance
  split
  next hrest => exact .stop .refl hrest
  next l rest hrest =>
    exact .move (steps_foldl_fault l.faults .refl) ((rest_foldl_fault l.faults p).trans hrest)
      clean_foldl_fault

theorem walks_get : Walks (get : Parse Parser) := by
  intro p a q hrun
  obtain ⟨rfl, rfl⟩ := run_get.1 hrun
  exact ⟨hrun, .refl⟩

theorem walks_token : Walks token := walks_get.bind fun _ => .pure _

theorem walks_here : Walks here := walks_get.bind fun _ => .pure _

theorem walks_aborted : Walks aborted := walks_get.bind fun _ => .pure _

theorem walks_next : Walks next := by
  intro p a q hrun
  obtain rfl := run_next.1 hrun
  exact ⟨hrun, steps_advance p⟩

theorem walks_report {message : String} (h : message ≠ abortMessage) :
    Walks (report message) := by
  intro p a q hrun
  obtain rfl := run_report.1 hrun
  exact ⟨hrun, .fault .refl h⟩

theorem walks_found : Walks found := by
  refine walks_get.bind fun p => ?_
  dsimp only
  split
  · exact .pure _
  · exact .pure _
  · exact .pure _

theorem walks_skip (fuel : Nat) : Walks (skip fuel) := by
  induction fuel with
  | zero => exact .failure
  | succ fuel ih =>
      refine walks_token.bind fun t => .ite (.pure _) ?_
      exact walks_next.bind fun _ => .ite (.pure _) ih

theorem walks_recover : Walks recover := walks_get.bind fun _ => walks_skip _

theorem walks_got (t : Token) : Walks (got t) :=
  walks_token.bind fun _ => .ite (walks_next.bind fun _ => .pure _) (.pure _)

theorem walks_want (t : Token) : Walks (want t) := by
  refine (walks_got t).bind fun _ => .ite (walks_found.bind fun s => ?_) (.pure _)
  refine (walks_report ?_).bind fun _ => walks_recover
  exact ne_abortMessage (head_append (head_append (head_append rfl))) (by decide : 'e' ≠ 't')

theorem walks_ident : Walks ident := by
  refine walks_get.bind fun p => .ite (walks_next.bind fun _ => .pure _) ?_
  refine walks_found.bind fun s => (walks_report ?_).bind fun _ => .pure _
  exact ne_abortMessage (head_append rfl) (by decide : 'e' ≠ 't')

/-! Lists, types and expressions -/

theorem exists_of_succ_le {n m : Nat} (h : n + 1 ≤ m) : ∃ k, m = k + 1 ∧ n ≤ k :=
  ⟨m - 1, by omega, by omega⟩

section

variable {item item' : Parse α} {fuel fuel' : Nat}

theorem follows_commaList (h : Follows item item') (hfuel : fuel ≤ fuel') :
    Follows (commaList item fuel) (commaList item' fuel') := by
  induction fuel generalizing fuel' with
  | zero => exact .failure
  | succ fuel ih =>
      obtain ⟨fuel', rfl, hle⟩ := exists_of_succ_le hfuel
      refine walks_token.bind fun _ => .ite (.pure _) (h.bind fun x => ?_)
      refine (walks_got _).bind fun _ => .ite (.pure _) ?_
      exact (ih hle).bind fun _ => .pure _

theorem follows_commaList1 (h : Follows item item') (hfuel : fuel ≤ fuel') :
    Follows (commaList1 item fuel) (commaList1 item' fuel') := by
  induction fuel generalizing fuel' with
  | zero => exact .failure
  | succ fuel ih =>
      obtain ⟨fuel', rfl, hle⟩ := exists_of_succ_le hfuel
      refine h.bind fun x => (walks_got _).bind fun _ => .ite (.pure _) ?_
      exact (ih hle).bind fun _ => .pure _

theorem follows_type (hfuel : fuel ≤ fuel') : Follows (type fuel) (type fuel') := by
  induction fuel generalizing fuel' with
  | zero => exact .failure
  | succ fuel ih =>
      obtain ⟨fuel', rfl, hle⟩ := exists_of_succ_le hfuel
      refine walks_ident.bind fun base => walks_token.bind fun _ => .ite (.pure _) ?_
      refine walks_next.bind fun _ => (follows_commaList1 (ih hle) hle).bind fun _ => ?_
      exact (walks_want _).bind fun _ => .pure _

/-- More fuel does not change how an expression is read. -/
structure FollowsExprs (fuel fuel' : Nat) : Prop where
  binary : ∀ prec, Follows (binary fuel prec) (binary fuel' prec)
  binaryRest : ∀ prec x, Follows (binaryRest fuel prec x) (binaryRest fuel' prec x)
  unary : Follows (unary fuel) (unary fuel')
  suffixes : ∀ x, Follows (suffixes fuel x) (suffixes fuel' x)
  operand : Follows (operand fuel) (operand fuel')
  initializer : ∀ cls, Follows (initializer fuel cls) (initializer fuel' cls)

namespace FollowsExprs

theorem binaryRest_succ (h : FollowsExprs fuel fuel') (prec : Nat) (x : Expr) :
    Follows (Parse.binaryRest (fuel + 1) prec x) (Parse.binaryRest (fuel' + 1) prec x) := by
  refine walks_token.bind fun t => ?_
  cases BinaryOp.ofToken? t with
  | none => exact .pure _
  | some op =>
      refine .ite (.pure _) (walks_next.bind fun _ => ?_)
      exact (h.binary _).bind fun _ => h.binaryRest _ _

theorem unary_succ (h : FollowsExprs fuel fuel') :
    Follows (Parse.unary (fuel + 1)) (Parse.unary (fuel' + 1)) := by
  refine walks_token.bind fun t => ?_
  cases UnaryOp.ofToken? t with
  | none => exact h.operand.bind fun x => h.suffixes x
  | some op =>
      exact walks_here.bind fun _ => walks_next.bind fun _ => h.unary.bind fun _ => .pure _

theorem suffixes_succ (h : FollowsExprs fuel fuel') (hfuel : fuel ≤ fuel') (x : Expr) :
    Follows (Parse.suffixes (fuel + 1) x) (Parse.suffixes (fuel' + 1) x) := by
  refine walks_token.bind fun t => ?_
  split
  · refine (walks_want _).bind fun _ => walks_token.bind fun _ => ?_
    refine .branch (follows_commaList1 (h.binary 0) hfuel) (.pure _) fun _ => ?_
    exact (walks_want _).bind fun _ => h.suffixes _
  · exact walks_next.bind fun _ => walks_ident.bind fun _ => h.suffixes _
  · exact .pure _

theorem operand_succ (h : FollowsExprs fuel fuel') :
    Follows (Parse.operand (fuel + 1)) (Parse.operand (fuel' + 1)) := by
  refine walks_get.bind fun p => ?_
  dsimp only
  split
  · exact walks_next.bind fun _ => walks_token.bind fun _ => .ite (h.initializer _) (.pure _)
  · exact walks_next.bind fun _ => .pure _
  · exact walks_next.bind fun _ => (h.binary 0).bind fun _ =>
      (walks_want _).bind fun _ => .pure _
  · refine walks_found.bind fun s => (walks_report ?_).bind fun _ =>
      walks_here.bind fun _ => .pure _
    exact ne_abortMessage (head_append rfl) (by decide : 'e' ≠ 't')

theorem initializer_succ (h : FollowsExprs fuel fuel') (hfuel : fuel ≤ fuel') (cls : Ident) :
    Follows (Parse.initializer (fuel + 1) cls) (Parse.initializer (fuel' + 1) cls) := by
  refine (walks_want _).bind fun _ => (walks_want _).bind fun _ =>
    (walks_want _).bind fun _ => (follows_commaList ?_ hfuel).bind fun _ =>
      (walks_want _).bind fun _ => .pure _
  exact walks_ident.bind fun _ => (walks_want _).bind fun _ => (h.binary 0).bind fun _ => .pure _

end FollowsExprs

theorem followsExprs (hfuel : fuel ≤ fuel') : FollowsExprs fuel fuel' := by
  induction fuel generalizing fuel' with
  | zero =>
      exact ⟨fun _ => .failure, fun _ _ => .failure, .failure, fun _ => .failure, .failure,
        fun _ => .failure⟩
  | succ fuel ih =>
      obtain ⟨fuel', rfl, hle⟩ := exists_of_succ_le hfuel
      exact
        { binary := fun prec => (ih hle).unary.bind fun x => (ih hle).binaryRest prec x
          binaryRest := (ih hle).binaryRest_succ
          unary := (ih hle).unary_succ
          suffixes := (ih hle).suffixes_succ hle
          operand := (ih hle).operand_succ
          initializer := (ih hle).initializer_succ hle }

theorem follows_expr (hfuel : fuel ≤ fuel') : Follows (expr fuel) (expr fuel') :=
  (followsExprs hfuel).binary 0

/-! Statements -/

/-- More fuel does not change how a statement is read. -/
structure FollowsStmts (fuel fuel' : Nat) : Prop where
  stmt : Follows (stmt fuel) (stmt fuel')
  ifElse : Follows (ifElse fuel) (ifElse fuel')
  block : Follows (block fuel) (block fuel')
  stmts : Follows (stmts fuel) (stmts fuel')

namespace FollowsStmts

theorem stmt_succ (h : FollowsStmts fuel fuel') (hfuel : fuel ≤ fuel') :
    Follows (Parse.stmt (fuel + 1)) (Parse.stmt (fuel' + 1)) := by
  have hexpr := follows_expr hfuel
  refine walks_here.bind fun pos => walks_token.bind fun t => ?_
  split
  · exact h.block.bind fun _ => .pure _
  · exact (walks_want _).bind fun _ => walks_ident.bind fun _ => (walks_want _).bind fun _ =>
      (follows_type hfuel).bind fun _ => (walks_want _).bind fun _ => hexpr.bind fun _ =>
        (walks_want _).bind fun _ => .pure _
  · exact h.ifElse
  · exact (walks_want _).bind fun _ => hexpr.bind fun _ => h.block.bind fun _ => .pure _
  · exact (walks_want _).bind fun _ => walks_ident.bind fun _ => (walks_want _).bind fun _ =>
      walks_here.bind fun _ => (walks_want _).bind fun _ => hexpr.bind fun _ =>
        (walks_want _).bind fun _ => hexpr.bind fun _ => (walks_want _).bind fun _ =>
          h.block.bind fun _ => .pure _
  · exact (walks_want _).bind fun _ => walks_token.bind fun t =>
      .branch hexpr.map (.pure _) fun _ => (walks_want _).bind fun _ => .pure _
  · exact walks_next.bind fun _ => .pure _
  · refine hexpr.bind fun x => (walks_got _).bind fun _ => .ite ?_ ?_
    · exact hexpr.bind fun _ => (walks_want _).bind fun _ => .pure _
    · exact (walks_want _).bind fun _ => .pure _

theorem ifElse_succ (h : FollowsStmts fuel fuel') (hfuel : fuel ≤ fuel') :
    Follows (Parse.ifElse (fuel + 1)) (Parse.ifElse (fuel' + 1)) := by
  refine walks_here.bind fun pos => (walks_want _).bind fun _ =>
    (follows_expr hfuel).bind fun cond => h.block.bind fun body => (walks_got _).bind fun _ => ?_
  refine .ite (walks_token.bind fun _ => .ite ?_ ?_) (.pure _)
  · exact h.ifElse.bind fun _ => .pure _
  · exact h.block.bind fun _ => .pure _

theorem block_succ (h : FollowsStmts fuel fuel') :
    Follows (Parse.block (fuel + 1)) (Parse.block (fuel' + 1)) :=
  walks_here.bind fun _ => (walks_want _).bind fun _ => h.stmts.bind fun _ =>
    walks_here.bind fun _ => (walks_want _).bind fun _ => .pure _

theorem stmts_succ (h : FollowsStmts fuel fuel') :
    Follows (Parse.stmts (fuel + 1)) (Parse.stmts (fuel' + 1)) := by
  refine walks_token.bind fun t => walks_aborted.bind fun _ => .ite (.pure _) ?_
  refine walks_here.bind fun start => h.stmt.bind fun s => walks_here.bind fun _ => ?_
  have hrest : Follows (do return s :: (← Parse.stmts fuel))
      (do return s :: (← Parse.stmts fuel')) := h.stmts.bind fun _ => .pure _
  exact .ite (walks_next.bind fun _ => hrest) hrest

end FollowsStmts

theorem followsStmts (hfuel : fuel ≤ fuel') : FollowsStmts fuel fuel' := by
  induction fuel generalizing fuel' with
  | zero => exact ⟨.failure, .failure, .failure, .failure⟩
  | succ fuel ih =>
      obtain ⟨fuel', rfl, hle⟩ := exists_of_succ_le hfuel
      exact ⟨(ih hle).stmt_succ hle, (ih hle).ifElse_succ hle, (ih hle).block_succ,
        (ih hle).stmts_succ⟩

/-! Declarations -/

theorem follows_typeParams (hfuel : fuel ≤ fuel') :
    Follows (typeParams fuel) (typeParams fuel') := by
  refine (walks_want _).bind fun _ => (follows_commaList ?_ hfuel).bind fun _ =>
    (walks_want _).bind fun _ => .pure _
  exact walks_ident.bind fun name => (walks_got _).bind fun _ =>
    .branch walks_ident.map (.pure _) fun _ => .pure _

theorem follows_field (hfuel : fuel ≤ fuel') : Follows (field fuel) (field fuel') :=
  walks_ident.bind fun _ => (walks_want _).bind fun _ => (follows_type hfuel).bind fun _ =>
    .pure _

theorem follows_receiver (hfuel : fuel ≤ fuel') (name : Ident) :
    Follows (receiver fuel name) (receiver fuel' name) := by
  refine walks_token.bind fun _ => .ite ?_ ?_
  · refine (walks_report ?_).bind fun _ => .pure _
    exact ne_abortMessage (head_append (head_append rfl)) (by decide : 'm' ≠ 't')
  · refine walks_ident.bind fun recv => walks_token.bind fun _ => ?_
    have hclose : Walks (do
        if (← token) ≠ .rparen then
          want .comma
        return some recv) :=
      walks_token.bind fun _ => .ite ((walks_want _).bind fun _ => .pure _) (.pure _)
    refine .ite ((walks_report ?_).bind fun _ => walks_next.bind fun _ => ?_) hclose
    · exact ne_abortMessage (head_append (head_append rfl)) (by decide : 'r' ≠ 't')
    · exact (follows_type hfuel).discard.bind fun _ => hclose

theorem follows_signature (hfuel : fuel ≤ fuel') (member : Bool) :
    Follows (signature fuel member) (signature fuel' member) := by
  refine walks_here.bind fun pos => (walks_want _).bind fun _ => walks_ident.bind fun name =>
    walks_token.bind fun _ => .branch (follows_typeParams hfuel) (.pure _) fun tparams => ?_
  refine (walks_want _).bind fun _ =>
    .branch (follows_receiver hfuel name) (.pure _) fun recv => ?_
  refine (follows_commaList (follows_field hfuel) hfuel).bind fun _ =>
    (walks_want _).bind fun _ => (walks_got _).bind fun _ => ?_
  exact .branch (follows_type hfuel).map (.pure _) fun _ => .pure _

theorem follows_funcDecl (hfuel : fuel ≤ fuel') (member : Bool) :
    Follows (funcDecl fuel member) (funcDecl fuel' member) :=
  (follows_signature hfuel member).bind fun _ => (followsStmts hfuel).block.bind fun _ => .pure _

theorem follows_hostDecl (hfuel : fuel ≤ fuel') : Follows (hostDecl fuel) (hostDecl fuel') :=
  walks_here.bind fun _ => (walks_want _).bind fun _ =>
    (follows_signature hfuel false).bind fun _ => (walks_got _).discard.bind fun _ => .pure _

theorem follows_members {item item' : Parse FuncDecl} (h : Follows item item')
    (hfuel : fuel ≤ fuel') : Follows (members item fuel) (members item' fuel') := by
  induction fuel generalizing fuel' with
  | zero => exact .failure
  | succ fuel ih =>
      obtain ⟨fuel', rfl, hle⟩ := exists_of_succ_le hfuel
      refine walks_aborted.bind fun _ => walks_token.bind fun _ => .ite (.pure _) ?_
      exact h.bind fun _ => (ih hle).bind fun _ => .pure _

theorem follows_classDecl (hfuel : fuel ≤ fuel') : Follows (classDecl fuel) (classDecl fuel') := by
  refine walks_here.bind fun pos => (walks_want _).bind fun _ => walks_ident.bind fun name =>
    walks_token.bind fun _ => .branch (follows_typeParams hfuel) (.pure _) fun tparams => ?_
  refine (walks_got _).bind fun _ => .branch walks_ident.map (.pure _) fun parent => ?_
  exact (walks_want _).bind fun _ =>
    (follows_commaList (follows_field hfuel) hfuel).bind fun _ =>
      (follows_members (follows_funcDecl hfuel true) hfuel).bind fun _ =>
        (walks_want _).bind fun _ => .pure _

theorem follows_boundDecl (hfuel : fuel ≤ fuel') :
    Follows (boundDecl fuel) (boundDecl fuel') := by
  refine walks_here.bind fun _ => (walks_want _).bind fun _ => walks_ident.bind fun _ =>
    (walks_want _).bind fun _ => (follows_members ?_ hfuel).bind fun _ =>
      (walks_want _).bind fun _ => .pure _
  exact (follows_signature hfuel true).bind fun _ => (walks_want _).bind fun _ => .pure _

theorem follows_constDecl (hfuel : fuel ≤ fuel') : Follows (constDecl fuel) (constDecl fuel') :=
  walks_here.bind fun _ => (walks_want _).bind fun _ => walks_ident.bind fun _ =>
    (walks_want _).bind fun _ => (follows_type hfuel).bind fun _ => (walks_want _).bind fun _ =>
      (follows_expr hfuel).bind fun _ => (walks_want _).bind fun _ => .pure _

theorem follows_decl (hfuel : fuel ≤ fuel') : Follows (decl fuel) (decl fuel') := by
  refine walks_token.bind fun _ => ?_
  split
  · exact (follows_classDecl hfuel).bind fun _ => .pure _
  · exact (follows_boundDecl hfuel).bind fun _ => .pure _
  · exact (follows_funcDecl hfuel false).bind fun _ => .pure _
  · exact (follows_hostDecl hfuel).bind fun _ => .pure _
  · exact (follows_constDecl hfuel).bind fun _ => .pure _
  · refine walks_found.bind fun s => (walks_report ?_).bind fun _ =>
      walks_recover.bind fun _ => .pure _
    exact ne_abortMessage (head_append rfl) (by decide : 'e' ≠ 't')

/-- More fuel does not change the declarations of a text, and they are read by steps. -/
theorem follows_decls (hfuel : fuel ≤ fuel') : Follows (decls fuel) (decls fuel') := by
  induction fuel generalizing fuel' with
  | zero => exact .failure
  | succ fuel ih =>
      obtain ⟨fuel', rfl, hle⟩ := exists_of_succ_le hfuel
      refine walks_aborted.bind fun _ => walks_token.bind fun _ => .ite (.pure _) ?_
      refine walks_here.bind fun _ => (follows_decl hle).bind fun d => walks_here.bind fun _ =>
        walks_token.bind fun _ => ?_
      have hrest : Follows (do return d.toList ++ (← decls fuel))
          (do return d.toList ++ (← decls fuel')) := (ih hle).bind fun _ => .pure _
      exact .ite (walks_next.bind fun _ => hrest) hrest

end

end Parse

end ClassLang

/-!
What the parser reports along its steps: at most ten faults, and behind the tenth one
that it gives up. Its fault count and its first fault always agree with what it reported.
-/

namespace ClassLang

namespace Parse

/-- What follows a list of faults: at the place of the tenth, that the parser gives up. -/
def closing (faults : List SyntaxError) : List SyntaxError :=
  (faults[maxErrors - 1]?.map fun e => ⟨e.pos, abortMessage⟩).toList

theorem closing_of_lt {faults : List SyntaxError} (h : faults.length < maxErrors) :
    closing faults = [] := by
  simp [closing, List.getElem?_eq_none (Nat.le_sub_one_of_lt h)]

theorem closing_append {faults : List SyntaxError} {e : SyntaxError}
    (h : faults.length + 1 = maxErrors) :
    closing (faults ++ [e]) = [⟨e.pos, abortMessage⟩] := by
  have hlast : maxErrors - 1 = faults.length := by omega
  simp [closing, hlast]

end Parse

namespace Parser

open Parse

/-- `faults` are the faults that the parser has reported, in order. -/
structure Reported (p : Parser) (faults : List SyntaxError) : Prop where
  reports : p.reports.reverse = faults ++ closing faults
  count : p.count = faults.length
  limit : faults.length ≤ maxErrors
  aborted : p.aborted = true ↔ faults.length = maxErrors
  first : p.first = faults.head?
  message : ∀ e ∈ faults, e.message ≠ abortMessage

namespace Reported

variable {p : Parser} {faults : List SyntaxError} {e : SyntaxError}

theorem lt (h : p.Reported faults) (haborted : p.aborted = false) :
    faults.length < maxErrors := by
  refine Nat.lt_of_le_of_ne h.limit fun hfull => ?_
  simp [h.aborted.2 hfull] at haborted

/-- A parser that has given up has said why. -/
theorem clean (h : p.Reported faults) (hnil : p.reports.reverse = []) : p.Clean := by
  rw [h.reports] at hnil
  have hreports := h.reports
  obtain ⟨rfl, hclosing⟩ := List.append_eq_nil_iff.1 hnil
  refine ⟨by simpa [hclosing] using hreports, ?_⟩
  simpa [maxErrors] using h.aborted

theorem first_reports (h : p.Reported faults) : p.first = p.reports.reverse.head? := by
  rw [h.first, h.reports]
  cases faults with
  | nil => rfl
  | cons _ _ => rfl

theorem length_reports (h : p.Reported faults) : p.reports.reverse.length ≤ maxErrors + 1 := by
  rw [h.reports, List.length_append]
  refine Nat.add_le_add h.limit ?_
  unfold closing
  cases faults[maxErrors - 1]? with
  | none => exact Nat.zero_le _
  | some _ => exact Nat.le_refl _

/-- The first of the faults once another one has been reported. -/
theorem first_append (h : p.Reported faults) :
    (if p.count = 0 then some e else p.first) = (faults ++ [e]).head? := by
  rw [h.count, h.first]
  cases faults with
  | nil => simp
  | cons _ _ => simp

theorem message_append (h : p.Reported faults) (hmessage : e.message ≠ abortMessage) :
    ∀ x ∈ faults ++ [e], x.message ≠ abortMessage := by
  intro x hx
  rcases List.mem_append.1 hx with hx | hx
  · exact h.message x hx
  · exact List.mem_singleton.1 hx ▸ hmessage

/-- One more report: it is dropped if the parser has given up, and else it is the next of
the faults. -/
theorem fault (h : p.Reported faults) (hmessage : e.message ≠ abortMessage) :
    ∃ more, (Parse.fault p e).Reported (faults ++ more) := by
  refine fault_induction (motive := fun q => ∃ more, q.Reported (faults ++ more)) ?_ ?_ ?_
  · intro _
    exact ⟨[], by rwa [List.append_nil]⟩
  · intro haborted hcount
    rw [h.count] at hcount
    have hlength : (faults ++ [e]).length < maxErrors := by simpa using hcount
    refine ⟨[e], ?_, ?_, Nat.le_of_lt hlength, ?_, h.first_append, h.message_append hmessage⟩
    · rw [List.reverse_cons, h.reports, closing_of_lt (h.lt haborted), closing_of_lt hlength]
      simp
    · simp [h.count]
    · simp [haborted, Nat.ne_of_lt hcount]
  · intro haborted hcount
    rw [h.count] at hcount
    have hlength : faults.length + 1 = maxErrors := by
      have := h.lt haborted
      omega
    refine ⟨[e], ?_, ?_, ?_, ?_, h.first_append, h.message_append hmessage⟩
    · rw [List.reverse_cons, List.reverse_cons, h.reports, closing_of_lt (h.lt haborted),
        closing_append hlength]
      simp
    · simp [h.count]
    · simp [hlength]
    · simp [hlength]

end Reported

/-- Along its steps the parser reports more faults, after those it has reported. -/
theorem Steps.reported {p q : Parser} (h : p.Steps q) {faults : List SyntaxError}
    (hp : p.Reported faults) : ∃ more, q.Reported (faults ++ more) := by
  induction h with
  | refl => exact ⟨[], by rwa [List.append_nil]⟩
  | fault _ hmessage ih =>
      obtain ⟨more, hq⟩ := ih
      obtain ⟨last, hlast⟩ := hq.fault hmessage
      exact ⟨more ++ last, by rwa [← List.append_assoc]⟩
  | move _ _ _ ih =>
      obtain ⟨more, hq⟩ := ih
      exact ⟨more, hq.reports, hq.count, hq.limit, hq.aborted, hq.first, hq.message⟩
  | stop _ _ ih =>
      obtain ⟨more, hq⟩ := ih
      exact ⟨more, hq.reports, hq.count, hq.limit, hq.aborted, hq.first, hq.message⟩

/-- No report is taken back. -/
theorem Steps.clean {p q : Parser} (h : p.Steps q) (hq : q.Clean) : p.Clean := by
  induction h with
  | refl => exact hq
  | fault _ _ _ => exact absurd hq (Parse.not_clean_fault _ _)
  | move _ _ _ ih => exact ih hq
  | stop _ _ ih => exact ih hq

end Parser

namespace Parse

/-- What the parser has reported before its first token. -/
theorem reported_start (ls : List Lexeme) : ∃ faults, (start ls).Reported faults := by
  have hempty : Parser.Reported { current := default, rest := ls } [] :=
    { reports := rfl
      count := rfl
      limit := Nat.zero_le _
      aborted := by simp [maxErrors]
      first := rfl
      message := by simp }
  obtain ⟨faults, h⟩ := (steps_advance _).reported hempty
  exact ⟨faults, h⟩

/-- What the parser has reported when it has read the declarations of a text. -/
theorem reported_decls {fuel : Nat} {ls : List Lexeme} {ds : List Decl} {q : Parser}
    (h : (decls fuel).run (start ls) = some (ds, q)) : ∃ faults, q.Reported faults := by
  obtain ⟨faults, hstart⟩ := reported_start ls
  obtain ⟨more, hq⟩ := ((follows_decls (Nat.le_refl fuel)).steps h).reported hstart
  exact ⟨faults ++ more, hq⟩

end Parse

end ClassLang

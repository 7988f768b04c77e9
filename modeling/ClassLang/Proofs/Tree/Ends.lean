import ClassLang.Proofs.Tree.Run

/-!
The parser always ends. The lexemes that are left bound what remains to be done: no step
adds to them, and wherever a function of the parser calls itself without having read a
token, it does so with less fuel a fixed number of times.
-/

namespace ClassLang

namespace Parser

/-- How much is left to read: the lexemes behind the current one, and the current one
unless it is the end of the text. -/
def size (p : Parser) : Nat := p.rest.length + if p.current.token = .eof then 0 else 1

theorem size_le (p : Parser) : p.size ≤ p.rest.length + 1 := by
  unfold size
  split <;> omega

theorem size_of_ne_eof {p : Parser} (h : p.current.token ≠ .eof) :
    p.size = p.rest.length + 1 := by
  simp [size, h]

theorem size_fault_le (p : Parser) (e : SyntaxError) : (Parse.fault p e).size ≤ p.size := by
  refine Parse.fault_induction (motive := fun q => q.size ≤ p.size) ?_ ?_ ?_
  · intro _; exact Nat.le_refl _
  · intro _ _; exact Nat.le_refl _
  · intro _ _; simp [size]

/-- `q` is as far as `p` or behind it: fewer lexemes are left, or it is at the same place. -/
structure Past (p q : Parser) : Prop where
  size : q.size ≤ p.size
  rest : q.rest.length ≤ p.rest.length
  place : q.rest.length = p.rest.length → q.current.pos = p.current.pos

theorem Past.trans {p q r : Parser} (h : p.Past q) (h' : q.Past r) : p.Past r where
  size := Nat.le_trans h'.size h.size
  rest := Nat.le_trans h'.rest h.rest
  place heq := by
    have hle := h.rest
    have hle' := h'.rest
    rw [h'.place (by omega), h.place (by omega)]

theorem past_fault (p : Parser) (e : SyntaxError) : p.Past (Parse.fault p e) := by
  refine ⟨size_fault_le p e, Nat.le_of_eq (by rw [Parse.rest_fault]), fun _ => ?_⟩
  refine Parse.fault_induction (motive := fun q => q.current.pos = p.current.pos) ?_ ?_ ?_
  · intro _; rfl
  · intro _ _; rfl
  · intro _ _; rfl

theorem Steps.past {p q : Parser} (h : p.Steps q) : p.Past q := by
  induction h with
  | refl => exact ⟨Nat.le_refl _, Nat.le_refl _, fun _ => rfl⟩
  | @fault q e _ _ ih => exact ih.trans (past_fault q e)
  | @move q l rest _ hrest _ ih =>
      have hlength : q.rest.length = rest.length + 1 := by simp [hrest]
      refine ih.trans ⟨?_, Nat.le_of_lt (by simp [hrest]), fun heq => ?_⟩
      · exact Nat.le_trans (size_le _) (by simp [size, hlength])
      · simp [hrest] at heq
  | @stop q _ hrest ih =>
      exact ih.trans ⟨by simp [size], Nat.le_refl _, fun _ => rfl⟩

theorem size_advance_le_rest (p : Parser) : (Parse.advance p).size ≤ p.rest.length := by
  unfold Parse.advance
  split
  next hrest => simp [size, hrest]
  next l rest hrest =>
    refine Nat.le_trans (size_le _) ?_
    simp [hrest]

/-- A token has been read. -/
theorem size_advance_lt {p : Parser} (h : p.current.token ≠ .eof) :
    (Parse.advance p).size < p.size := by
  rw [size_of_ne_eof h]
  exact Nat.lt_succ_of_le p.size_advance_le_rest

/-- Less is left at another place. -/
theorem Past.size_lt {p q : Parser} (h : p.Past q) (hp : p.current.token ≠ .eof)
    (hpos : q.current.pos ≠ p.current.pos) : q.size < p.size := by
  have hrest := h.rest
  have hne : q.rest.length ≠ p.rest.length := fun heq => hpos (h.place heq)
  have hq := q.size_le
  rw [size_of_ne_eof hp]
  omega

/-- Less is left behind a token that is dropped. -/
theorem Past.size_advance_lt {p q : Parser} (h : p.Past q) (hp : p.current.token ≠ .eof) :
    (Parse.advance q).size < p.size := by
  rw [size_of_ne_eof hp]
  exact Nat.lt_succ_of_le (Nat.le_trans q.size_advance_le_rest h.rest)

end Parser

namespace Parse

variable {α β : Type}

/-- `m` has a result at `p`, and at most `n` is left to read then. -/
def EndsAt (p : Parser) (n : Nat) (m : Parse α) : Prop :=
  ∃ a q, m.run p = some (a, q) ∧ q.size ≤ n

/-- `m` has a result wherever at most `n` is left to read. -/
def Ends (n : Nat) (m : Parse α) : Prop := ∀ p, p.size ≤ n → EndsAt p n m

section

variable {m : Parse α} {f : α → Parse β} {n k : Nat} {p : Parser}

theorem EndsAt.bind (hm : EndsAt p k m) (hf : ∀ a, Ends k (f a)) (hle : k ≤ n) :
    EndsAt p n (m >>= f) := by
  obtain ⟨a, q, hrun, hq⟩ := hm
  obtain ⟨b, r, hrun', hr⟩ := hf a q hq
  exact ⟨b, r, run_bind.2 ⟨a, q, hrun, hrun'⟩, Nat.le_trans hr hle⟩

theorem EndsAt.mono (hm : EndsAt p k m) (hle : k ≤ n) : EndsAt p n m := by
  obtain ⟨a, q, hrun, hq⟩ := hm
  exact ⟨a, q, hrun, Nat.le_trans hq hle⟩

theorem endsAt_run {q : Parser} {a : α} (hrun : m.run p = some (a, q)) (h : EndsAt q n (f a)) :
    EndsAt p n (m >>= f) := by
  obtain ⟨b, r, hrun', hr⟩ := h
  exact ⟨b, r, run_bind.2 ⟨a, q, hrun, hrun'⟩, hr⟩

namespace Ends

theorem pure (a : α) : Ends n (Pure.pure a) :=
  fun p hp => ⟨a, p, run_pure.2 ⟨rfl, rfl⟩, hp⟩

theorem bind (hm : Ends n m) (hf : ∀ a, Ends n (f a)) : Ends n (m >>= f) :=
  fun p hp => (hm p hp).bind hf (Nat.le_refl n)

theorem map {g : α → β} (hm : Ends n m) : Ends n (g <$> m) := by
  rw [map_eq_pure_bind]
  exact hm.bind fun a => .pure (g a)

theorem ite {c : Prop} [Decidable c] {m' : Parse α} (hm : Ends n m) (hm' : Ends n m') :
    Ends n (if c then m else m') := by
  split
  · exact hm
  · exact hm'

/-- A choice whose two sides go on in the same way. -/
theorem branch {c : Prop} [Decidable c] {m' : Parse α} (hm : Ends n m) (hm' : Ends n m')
    (hf : ∀ a, Ends n (f a)) : Ends n (if c then m >>= f else m' >>= f) :=
  .ite (hm.bind hf) (hm'.bind hf)

theorem discard (hm : Ends n m) : Ends n (discard m) := hm.map

/-- A program that only looks at the state. -/
theorem get {f : Parser → Parse α} (h : ∀ p, p.size ≤ n → EndsAt p n (f p)) :
    Ends n (get >>= f) :=
  fun p hp => endsAt_run (run_get.2 ⟨rfl, rfl⟩) (h p hp)

end Ends

end

/-! Steps of the primitives -/

section

variable {n : Nat} {p : Parser} {f : Token → Parse α}

theorem endsAt_token (h : EndsAt p n (f p.current.token)) : EndsAt p n (token >>= f) :=
  endsAt_run (run_token.2 ⟨rfl, rfl⟩) h

theorem endsAt_here {f : Pos → Parse α} (h : EndsAt p n (f p.current.pos)) :
    EndsAt p n (here >>= f) :=
  endsAt_run (run_here.2 ⟨rfl, rfl⟩) h

theorem endsAt_aborted {f : Bool → Parse α} (h : EndsAt p n (f p.aborted)) :
    EndsAt p n (aborted >>= f) :=
  endsAt_run (run_aborted.2 ⟨rfl, rfl⟩) h

theorem ends_token : Ends n token := fun p hp => ⟨_, p, run_token.2 ⟨rfl, rfl⟩, hp⟩

theorem ends_here : Ends n here := fun p hp => ⟨_, p, run_here.2 ⟨rfl, rfl⟩, hp⟩

theorem ends_next : Ends n next := fun p hp =>
  ⟨(), advance p, run_next.2 rfl, Nat.le_trans (steps_advance p).past.size hp⟩

theorem size_advance_le (h : p.current.token ≠ .eof) (hp : p.size ≤ n + 1) :
    (advance p).size ≤ n := by
  have := Parser.size_advance_lt h
  omega

theorem endsAt_next (h : p.current.token ≠ .eof) (hp : p.size ≤ n + 1) : EndsAt p n next :=
  ⟨(), _, run_next.2 rfl, size_advance_le h hp⟩

theorem ends_report (message : String) : Ends n (report message) := fun p hp =>
  ⟨(), _, run_report.2 rfl, Nat.le_trans (Parser.size_fault_le p _) hp⟩

theorem ends_found : Ends n found := by
  refine .get fun p hp => ?_
  dsimp only
  split
  · exact Ends.pure _ p hp
  · exact Ends.pure _ p hp
  · exact Ends.pure _ p hp

theorem size_pos (h : p.current.token ≠ .eof) (hp : p.size ≤ n) : ∃ k, n = k + 1 := by
  rw [Parser.size_of_ne_eof h] at hp
  exact ⟨n - 1, by omega⟩

theorem ends_skip {fuel : Nat} (hfuel : n < fuel) : Ends n (skip fuel) := by
  induction fuel generalizing n with
  | zero => exact absurd hfuel (Nat.not_lt_zero n)
  | succ fuel ih =>
      intro p hp
      refine endsAt_token ?_
      split
      · exact Ends.pure _ p hp
      next hsync =>
        have heof : p.current.token ≠ .eof := fun heq => hsync (by rw [heq]; rfl)
        obtain ⟨n, rfl⟩ := size_pos heof hp
        refine (endsAt_next heof hp).bind (fun _ => .ite (.pure _) (ih ?_)) (Nat.le_succ n)
        omega

theorem ends_recover : Ends n recover := by
  refine .get fun p hp => ?_
  have hskip : Ends p.size (skip (p.rest.length + 2)) := ends_skip (Nat.lt_succ_of_le p.size_le)
  exact (hskip p (Nat.le_refl _)).mono hp

theorem ends_got (t : Token) : Ends n (got t) :=
  ends_token.bind fun _ => .ite (ends_next.bind fun _ => .pure _) (.pure _)

theorem ends_want (t : Token) : Ends n (want t) :=
  (ends_got t).bind fun _ => .ite
    (ends_found.bind fun _ => (ends_report _).bind fun _ => ends_recover) (.pure _)

/-- A token that is there is read. -/
theorem endsAt_want {t : Token} (ht : p.current.token = t) (heof : t ≠ .eof)
    (hp : p.size ≤ n + 1) : EndsAt p n (want t) :=
  ⟨(), _, run_want_of_eq ht, size_advance_le (ht ▸ heof) hp⟩

theorem ends_ident : Ends n ident := by
  refine .get fun p hp => Ends.ite (ends_next.bind fun _ => .pure _) ?_ p hp
  exact ends_found.bind fun _ => (ends_report _).bind fun _ => .pure _

/-- A name that is there is read. -/
theorem endsAt_ident (ht : p.current.token = .name) (hp : p.size ≤ n + 1) :
    EndsAt p n ident :=
  ⟨_, _, run_ident_of_eq ht, size_advance_le (by simp [ht]) hp⟩

end

/-! Lists, types and expressions -/

section

variable {n fuel : Nat}

/-- A list of items that start with a name. -/
theorem ends_commaList {item : Parse α}
    (h : ∀ k p, k < n → p.current.token = .name → p.size ≤ k + 1 → EndsAt p k item)
    (hfuel : n < fuel) : Ends n (commaList item fuel) := by
  induction fuel generalizing n with
  | zero => exact absurd hfuel (Nat.not_lt_zero n)
  | succ fuel ih =>
      intro p hp
      refine endsAt_token ?_
      split
      · exact Ends.pure _ p hp
      next hname =>
        have hname : p.current.token = .name := by simpa using hname
        obtain ⟨n, rfl⟩ := size_pos (by simp [hname]) hp
        refine (h n p (Nat.lt_succ_self n) hname hp).bind (fun _ => ?_) (Nat.le_succ n)
        refine (ends_got _).bind fun _ => .ite (.pure _) (.bind (ih ?_ ?_) fun _ => .pure _)
        · exact fun k p hk => h k p (Nat.lt_succ_of_lt hk)
        · omega

/-- A list of at least one item, of which a comma comes before all but the first. -/
theorem ends_commaList1 {item : Parse α} (h : ∀ k, k ≤ n → Ends k item) (hfuel : n < fuel) :
    Ends n (commaList1 item fuel) := by
  induction fuel generalizing n with
  | zero => exact absurd hfuel (Nat.not_lt_zero n)
  | succ fuel ih =>
      refine (h n (Nat.le_refl n)).bind fun x p hp => ?_
      by_cases hcomma : p.current.token = .comma
      · obtain ⟨n, rfl⟩ := size_pos (by simp [hcomma]) hp
        have hgot : EndsAt p n (got .comma) :=
          ⟨_, _, run_got_of_eq hcomma, size_advance_le (by simp [hcomma]) hp⟩
        refine hgot.bind (fun _ => .ite (.pure _) (.bind (ih ?_ ?_) fun _ => .pure _))
          (Nat.le_succ n)
        · exact fun k hk => h k (Nat.le_succ_of_le hk)
        · omega
      · exact ⟨_, p, run_bind.2 ⟨false, p, run_got_of_ne hcomma, run_pure.2 ⟨rfl, rfl⟩⟩, hp⟩

theorem ends_type (hfuel : 4 * n < fuel) : Ends n (type fuel) := by
  induction fuel generalizing n with
  | zero => exact absurd hfuel (Nat.not_lt_zero _)
  | succ fuel ih =>
      refine ends_ident.bind fun base p hp => endsAt_token ?_
      split
      · exact Ends.pure _ p hp
      next hlss =>
        have hlss : p.current.token ≠ .eof := by
          intro heof
          simp [heof] at hlss
        obtain ⟨n, rfl⟩ := size_pos hlss hp
        refine (endsAt_next hlss hp).bind (fun _ => ?_) (Nat.le_succ n)
        refine (ends_commaList1 (fun k hk => ih ?_) ?_).bind fun _ =>
          (ends_want _).bind fun _ => .pure _
        · omega
        · omega

/-- The fuel with which each of the functions that read expressions ends. -/
structure EndsExprs (fuel : Nat) : Prop where
  binary : ∀ n prec, 4 * n + 3 ≤ fuel → Ends n (binary fuel prec)
  binaryRest : ∀ n prec x, 4 * n + 1 ≤ fuel → Ends n (binaryRest fuel prec x)
  unary : ∀ n, 4 * n + 2 ≤ fuel → Ends n (unary fuel)
  suffixes : ∀ n x, 4 * n + 1 ≤ fuel → Ends n (suffixes fuel x)
  operand : ∀ n, 4 * n + 1 ≤ fuel → Ends n (operand fuel)
  initializer : ∀ n cls, 4 * n + 4 ≤ fuel → Ends n (initializer fuel cls)

namespace EndsExprs

theorem binaryRest_succ (h : EndsExprs fuel) (prec : Nat) (x : Expr) (hfuel : 4 * n ≤ fuel) :
    Ends n (Parse.binaryRest (fuel + 1) prec x) := by
  intro p hp
  refine endsAt_token ?_
  split
  · exact Ends.pure _ p hp
  next op hop =>
    split
    · exact Ends.pure _ p hp
    · have heof : p.current.token ≠ .eof := by
        intro heof
        simp [heof, BinaryOp.ofToken?] at hop
      obtain ⟨n, rfl⟩ := size_pos heof hp
      refine (endsAt_next heof hp).bind (fun _ => ?_) (Nat.le_succ n)
      refine (h.binary n _ ?_).bind fun _ => h.binaryRest n _ _ ?_
      · omega
      · omega

theorem unary_succ (h : EndsExprs fuel) (hfuel : 4 * n + 1 ≤ fuel) :
    Ends n (Parse.unary (fuel + 1)) := by
  intro p hp
  refine endsAt_token ?_
  split
  · exact (h.operand n hfuel).bind (fun x => h.suffixes n x hfuel) p hp
  next op hop =>
    have heof : p.current.token ≠ .eof := by
      intro heof
      simp [heof, UnaryOp.ofToken?] at hop
    obtain ⟨n, rfl⟩ := size_pos heof hp
    refine endsAt_here ((endsAt_next heof hp).bind (fun _ => ?_) (Nat.le_succ n))
    refine (h.unary n ?_).bind fun _ => .pure _
    omega

theorem suffixes_succ (h : EndsExprs fuel) (x : Expr) (hfuel : 4 * n ≤ fuel) :
    Ends n (Parse.suffixes (fuel + 1) x) := by
  intro p hp
  refine endsAt_token ?_
  split
  next hlparen =>
    obtain ⟨n, rfl⟩ := size_pos (by simp [hlparen]) hp
    refine (endsAt_want hlparen (by simp) hp).bind (fun _ => ?_) (Nat.le_succ n)
    refine ends_token.bind fun _ => .branch (ends_commaList1 (fun k hk => h.binary k 0 ?_) ?_)
      (.pure _) fun _ => (ends_want _).bind fun _ => h.suffixes n _ ?_
    · omega
    · omega
    · omega
  next hdot =>
    obtain ⟨n, rfl⟩ := size_pos (by simp [hdot]) hp
    refine (endsAt_next (by simp [hdot]) hp).bind (fun _ => ?_) (Nat.le_succ n)
    refine ends_ident.bind fun _ => h.suffixes n _ ?_
    omega
  next => exact Ends.pure _ p hp

theorem operand_succ (h : EndsExprs fuel) (hfuel : 4 * n ≤ fuel) :
    Ends n (Parse.operand (fuel + 1)) := by
  refine .get fun p hp => ?_
  dsimp only
  split
  next hname =>
    obtain ⟨n, rfl⟩ := size_pos (by simp [hname]) hp
    refine (endsAt_next (by simp [hname]) hp).bind (fun _ => ?_) (Nat.le_succ n)
    refine ends_token.bind fun _ => .ite (h.initializer n _ ?_) (.pure _)
    omega
  next => exact ends_next.bind (fun _ => .pure _) p hp
  next hlparen =>
    obtain ⟨n, rfl⟩ := size_pos (by simp [hlparen]) hp
    refine (endsAt_next (by simp [hlparen]) hp).bind (fun _ => ?_) (Nat.le_succ n)
    refine (h.binary n 0 ?_).bind fun _ => (ends_want _).bind fun _ => .pure _
    omega
  next =>
    exact ends_found.bind (fun _ => (ends_report _).bind fun _ => ends_here.bind fun _ => .pure _)
      p hp

theorem initializer_succ (h : EndsExprs fuel) (cls : Ident) (hfuel : 4 * n + 3 ≤ fuel) :
    Ends n (Parse.initializer (fuel + 1) cls) := by
  refine (ends_want _).bind fun _ => (ends_want _).bind fun _ => (ends_want _).bind fun _ => ?_
  refine (ends_commaList (fun k p hk hname hp => ?_) ?_).bind fun _ =>
    (ends_want _).bind fun _ => .pure _
  · refine (endsAt_ident hname hp).bind (fun _ => ?_) (Nat.le_refl k)
    refine (ends_want _).bind fun _ => (h.binary k 0 ?_).bind fun _ => .pure _
    omega
  · omega

end EndsExprs

theorem endsExprs (fuel : Nat) : EndsExprs fuel := by
  induction fuel with
  | zero => constructor <;> intros <;> omega
  | succ fuel ih =>
      exact
        { binary := fun n prec hfuel => (ih.unary n (by omega)).bind fun x =>
            ih.binaryRest n prec x (by omega)
          binaryRest := fun n prec x hfuel => ih.binaryRest_succ prec x (by omega)
          unary := fun n hfuel => ih.unary_succ (by omega)
          suffixes := fun n x hfuel => ih.suffixes_succ x (by omega)
          operand := fun n hfuel => ih.operand_succ (by omega)
          initializer := fun n cls hfuel => ih.initializer_succ cls (by omega) }

theorem ends_expr (hfuel : 4 * n + 3 ≤ fuel) : Ends n (expr fuel) :=
  (endsExprs fuel).binary n 0 hfuel

/-! Statements -/

/-- The rest of a construct that starts with a keyword. -/
theorem endsAt_after {p : Parser} {t : Token} {f : Unit → Parse α} (ht : p.current.token = t)
    (heof : t ≠ .eof) (hp : p.size ≤ n) (hf : ∀ k, n = k + 1 → ∀ u, Ends k (f u)) :
    EndsAt p n (want t >>= f) := by
  obtain ⟨k, rfl⟩ := size_pos (ht ▸ heof) hp
  exact (endsAt_want ht heof hp).bind (hf k rfl) (Nat.le_succ k)

/-- The fuel with which each of the functions that read statements ends. A block and a
conditional take less where their first token is there. -/
structure EndsStmts (fuel : Nat) : Prop where
  stmt : ∀ n, 4 * n + 4 ≤ fuel → Ends n (stmt fuel)
  ifElse : ∀ n p, 4 * n + 3 ≤ fuel → p.current.token = .kwIf → p.size ≤ n →
    EndsAt p n (ifElse fuel)
  block : ∀ n, 4 * n + 6 ≤ fuel → Ends n (block fuel)
  blockAt : ∀ n p, 4 * n + 2 ≤ fuel → p.current.token = .lbrace → p.size ≤ n →
    EndsAt p n (Parse.block fuel)
  stmts : ∀ n, 4 * n + 5 ≤ fuel → Ends n (stmts fuel)

namespace EndsStmts

variable {p : Parser}

theorem stmt_succ (h : EndsStmts fuel) (hfuel : 4 * n + 3 ≤ fuel) :
    Ends n (Parse.stmt (fuel + 1)) := by
  intro p hp
  refine endsAt_here (endsAt_token ?_)
  split
  next hlbrace =>
    exact (h.blockAt n p (by omega) hlbrace hp).bind (fun _ => .pure _) (Nat.le_refl n)
  next hlet =>
    refine endsAt_after hlet (by simp) hp fun k hk _ => ?_
    exact ends_ident.bind fun _ => (ends_want _).bind fun _ => (ends_type (by omega)).bind fun _ =>
      (ends_want _).bind fun _ => (ends_expr (by omega)).bind fun _ =>
        (ends_want _).bind fun _ => .pure _
  next hif => exact h.ifElse n p hfuel hif hp
  next hwhile =>
    refine endsAt_after hwhile (by simp) hp fun k hk _ => ?_
    exact (ends_expr (by omega)).bind fun _ => (h.block k (by omega)).bind fun _ => .pure _
  next hfor =>
    refine endsAt_after hfor (by simp) hp fun k hk _ => ?_
    have hexpr : Ends k (expr fuel) := ends_expr (by omega)
    exact ends_ident.bind fun _ => (ends_want _).bind fun _ => ends_here.bind fun _ =>
      (ends_want _).bind fun _ => hexpr.bind fun _ => (ends_want _).bind fun _ =>
        hexpr.bind fun _ => (ends_want _).bind fun _ =>
          (h.block k (by omega)).bind fun _ => .pure _
  next hreturn =>
    refine endsAt_after hreturn (by simp) hp fun k hk _ => ?_
    exact ends_token.bind fun _ => .branch (ends_expr (by omega)).map (.pure _) fun _ =>
      (ends_want _).bind fun _ => .pure _
  next => exact ends_next.bind (fun _ => .pure _) p hp
  next =>
    have hexpr : Ends n (expr fuel) := ends_expr hfuel
    refine hexpr.bind (fun x => (ends_got _).bind fun _ => .ite ?_ ?_) p hp
    · exact hexpr.bind fun _ => (ends_want _).bind fun _ => .pure _
    · exact (ends_want _).bind fun _ => .pure _

theorem ifElse_succ (h : EndsStmts fuel) (hfuel : 4 * n + 2 ≤ fuel)
    (hif : p.current.token = .kwIf) (hp : p.size ≤ n) :
    EndsAt p n (Parse.ifElse (fuel + 1)) := by
  refine endsAt_here (endsAt_after hif (by simp) hp fun k hk _ => ?_)
  have hblock : Ends k (Parse.block fuel) := h.block k (by omega)
  refine (ends_expr (by omega)).bind fun cond => hblock.bind fun body => (ends_got _).bind fun _ =>
    .ite ?_ (.pure _)
  intro q hq
  refine endsAt_token ?_
  split
  next hchain =>
    exact (h.ifElse k q (by omega) hchain hq).bind (fun _ => .pure _) (Nat.le_refl k)
  next => exact hblock.bind (fun _ => .pure _) q hq

/-- The rest of a block behind its opening brace. -/
theorem ends_close (h : Ends n (Parse.stmts fuel)) (pos : Pos) : Ends n (do
    let body ← Parse.stmts fuel
    let close ← here
    want .rbrace
    return Block.mk pos body close) :=
  h.bind fun _ => ends_here.bind fun _ => (ends_want _).bind fun _ => .pure _

theorem block_succ (h : EndsStmts fuel) (hfuel : 4 * n + 5 ≤ fuel) :
    Ends n (Parse.block (fuel + 1)) :=
  ends_here.bind fun pos => (ends_want _).bind fun _ => ends_close (h.stmts n hfuel) pos

theorem blockAt_succ (h : EndsStmts fuel) (hfuel : 4 * n + 1 ≤ fuel)
    (hlbrace : p.current.token = .lbrace) (hp : p.size ≤ n) :
    EndsAt p n (Parse.block (fuel + 1)) := by
  refine endsAt_here (endsAt_after hlbrace (by simp) hp fun k hk _ => ?_)
  exact ends_close (h.stmts k (by omega)) _

/-- Every round of the loop reads or drops a token. -/
theorem stmts_succ (h : EndsStmts fuel) (hfuel : 4 * n + 4 ≤ fuel) :
    Ends n (Parse.stmts (fuel + 1)) := by
  intro p hp
  refine endsAt_token (endsAt_aborted ?_)
  split
  · exact Ends.pure _ p hp
  next hmore =>
    have heof : p.current.token ≠ .eof := by
      intro heof
      simp [heof] at hmore
    obtain ⟨k, rfl⟩ := size_pos heof hp
    obtain ⟨s, q, hrun, _⟩ := h.stmt (k + 1) (by omega) p hp
    have hpast := ((followsStmts (Nat.le_refl fuel)).stmt.steps hrun).past
    have hrest : Ends k (do return s :: (← Parse.stmts fuel)) :=
      (h.stmts k (by omega)).bind fun _ => .pure _
    refine endsAt_here (endsAt_run hrun (endsAt_here ?_))
    split
    · refine endsAt_run (a := ()) (run_next.2 rfl) ((hrest _ ?_).mono (Nat.le_succ k))
      have := hpast.size_advance_lt heof
      omega
    next hpos =>
      refine (hrest q ?_).mono (Nat.le_succ k)
      have := hpast.size_lt heof hpos
      omega

end EndsStmts

theorem endsStmts (fuel : Nat) : EndsStmts fuel := by
  induction fuel with
  | zero => constructor <;> intros <;> omega
  | succ fuel ih =>
      exact
        { stmt := fun n hfuel => ih.stmt_succ (by omega)
          ifElse := fun n p hfuel => ih.ifElse_succ (by omega)
          block := fun n hfuel => ih.block_succ (by omega)
          blockAt := fun n p hfuel => ih.blockAt_succ (by omega)
          stmts := fun n hfuel => ih.stmts_succ (by omega) }

/-! Declarations -/

theorem ends_typeParams (hfuel : n < fuel) : Ends n (typeParams fuel) := by
  refine (ends_want _).bind fun _ => (ends_commaList (fun k p _ hname hp => ?_) hfuel).bind
    fun _ => (ends_want _).bind fun _ => .pure _
  refine (endsAt_ident hname hp).bind (fun _ => ?_) (Nat.le_refl k)
  exact (ends_got _).bind fun _ => .branch ends_ident.map (.pure _) fun _ => .pure _

theorem ends_fields (hfuel : 4 * n < fuel) : Ends n (commaList (field fuel) fuel) := by
  refine ends_commaList (fun k p hk hname hp => ?_) (by omega)
  refine (endsAt_ident hname hp).bind (fun _ => ?_) (Nat.le_refl k)
  exact (ends_want _).bind fun _ => (ends_type (by omega)).bind fun _ => .pure _

theorem ends_receiver (hfuel : 4 * n < fuel) (name : Ident) : Ends n (receiver fuel name) := by
  refine ends_token.bind fun _ => .ite ((ends_report _).bind fun _ => .pure _) ?_
  refine ends_ident.bind fun recv => ends_token.bind fun _ => ?_
  have hclose : Ends n (do
      if (← token) ≠ .rparen then
        want .comma
      return some recv) :=
    ends_token.bind fun _ => .ite ((ends_want _).bind fun _ => .pure _) (.pure _)
  refine .ite ((ends_report _).bind fun _ => ends_next.bind fun _ => ?_) hclose
  exact (ends_type hfuel).discard.bind fun _ => hclose

/-- A header ends if what reads its keyword does. -/
theorem endsAt_signature {p : Parser} (member : Bool) (hfun : EndsAt p n (want .kwFun))
    (hfuel : 4 * n < fuel) : EndsAt p n (signature fuel member) := by
  refine endsAt_here (hfun.bind (fun _ => ?_) (Nat.le_refl n))
  refine ends_ident.bind fun name => ends_token.bind fun _ =>
    .branch (ends_typeParams (by omega)) (.pure _) fun tparams => ?_
  refine (ends_want _).bind fun _ =>
    .branch (ends_receiver hfuel name) (.pure _) fun recv => ?_
  refine (ends_fields hfuel).bind fun _ => (ends_want _).bind fun _ => (ends_got _).bind fun _ => ?_
  exact .branch (ends_type hfuel).map (.pure _) fun _ => .pure _

theorem endsAt_funcDecl {p : Parser} (member : Bool) (hfun : p.current.token = .kwFun)
    (hp : p.size ≤ n + 1) (hfuel : 4 * n + 6 ≤ fuel) : EndsAt p n (funcDecl fuel member) :=
  (endsAt_signature member (endsAt_want hfun (by simp) hp) (by omega)).bind
    (fun _ => ((endsStmts fuel).block n hfuel).bind fun _ => .pure _) (Nat.le_refl n)

theorem ends_members {item : Parse FuncDecl}
    (h : ∀ k p, k < n → p.current.token = .kwFun → p.size ≤ k + 1 → EndsAt p k item)
    (hfuel : n < fuel) : Ends n (members item fuel) := by
  induction fuel generalizing n with
  | zero => exact absurd hfuel (Nat.not_lt_zero n)
  | succ fuel ih =>
      intro p hp
      refine endsAt_aborted (endsAt_token ?_)
      split
      · exact Ends.pure _ p hp
      next hfun =>
        have hfun : p.current.token = .kwFun := by
          simp only [Bool.or_eq_true, decide_eq_true_eq, not_or, Decidable.not_not] at hfun
          exact hfun.2
        obtain ⟨n, rfl⟩ := size_pos (by simp [hfun]) hp
        refine (h n p (Nat.lt_succ_self n) hfun hp).bind (fun _ => ?_) (Nat.le_succ n)
        refine .bind (ih (fun k p hk => h k p (Nat.lt_succ_of_lt hk)) ?_) fun _ => .pure _
        omega

theorem ends_decl (hfuel : 4 * n + 2 ≤ fuel) : Ends n (decl fuel) := by
  intro p hp
  refine endsAt_token ?_
  split
  next hclass =>
    refine EndsAt.bind (endsAt_here (endsAt_after hclass (by simp) hp fun k hk _ => ?_))
      (fun _ => .pure _) (Nat.le_refl n)
    refine ends_ident.bind fun name => ends_token.bind fun _ =>
      .branch (ends_typeParams (by omega)) (.pure _) fun tparams => ?_
    refine (ends_got _).bind fun _ => .branch ends_ident.map (.pure _) fun parent => ?_
    refine (ends_want _).bind fun _ => (ends_fields (by omega)).bind fun _ =>
      (ends_members (fun k' p _ hfun hp => ?_) (by omega)).bind fun _ =>
        (ends_want _).bind fun _ => .pure _
    exact endsAt_funcDecl true hfun hp (by omega)
  next hbound =>
    refine EndsAt.bind (endsAt_here (endsAt_after hbound (by simp) hp fun k hk _ => ?_))
      (fun _ => .pure _) (Nat.le_refl n)
    refine ends_ident.bind fun _ => (ends_want _).bind fun _ =>
      (ends_members (fun k' p _ hfun hp => ?_) (by omega)).bind fun _ =>
        (ends_want _).bind fun _ => .pure _
    exact (endsAt_signature true (endsAt_want hfun (by simp) hp) (by omega)).bind
      (fun _ => (ends_want _).bind fun _ => .pure _) (Nat.le_refl _)
  next hfun =>
    obtain ⟨k, rfl⟩ := size_pos (by simp [hfun]) hp
    exact (endsAt_funcDecl false hfun hp (by omega)).bind (fun _ => .pure _) (Nat.le_succ k)
  next hextern =>
    refine EndsAt.bind (endsAt_here (endsAt_after hextern (by simp) hp fun k hk _ => ?_))
      (fun _ => .pure _) (Nat.le_refl n)
    have hheader : Ends k (signature fuel false) := fun q hq =>
      endsAt_signature false (ends_want _ q hq) (by omega)
    exact hheader.bind fun _ => (ends_got _).discard.bind fun _ => .pure _
  next hconst =>
    refine EndsAt.bind (endsAt_here (endsAt_after hconst (by simp) hp fun k hk _ => ?_))
      (fun _ => .pure _) (Nat.le_refl n)
    exact ends_ident.bind fun _ => (ends_want _).bind fun _ => (ends_type (by omega)).bind fun _ =>
      (ends_want _).bind fun _ => (ends_expr (by omega)).bind fun _ =>
        (ends_want _).bind fun _ => .pure _
  next =>
    exact ends_found.bind (fun _ => (ends_report _).bind fun _ =>
      ends_recover.bind fun _ => .pure _) p hp

/-- Every round of the loop reads or drops a token, or comes to the end of the text. -/
theorem ends_decls (hfuel : 4 * n + 3 ≤ fuel) : Ends n (decls fuel) := by
  induction fuel generalizing n with
  | zero => omega
  | succ fuel ih =>
      intro p hp
      refine endsAt_aborted (endsAt_token ?_)
      split
      · exact Ends.pure _ p hp
      next hmore =>
        have heof : p.current.token ≠ .eof := by
          intro heof
          simp [heof] at hmore
        obtain ⟨k, rfl⟩ := size_pos heof hp
        have hdecl : Ends (k + 1) (decl fuel) := ends_decl (by omega)
        obtain ⟨d, q, hrun, _⟩ := hdecl p hp
        have hpast := ((follows_decl (Nat.le_refl fuel)).steps hrun).past
        have hrest : Ends k (do return d.toList ++ (← decls fuel)) :=
          (ih (by omega)).bind fun _ => .pure _
        refine endsAt_here (endsAt_run hrun (endsAt_here (endsAt_token ?_)))
        split
        · refine endsAt_run (a := ()) (run_next.2 rfl) ((hrest _ ?_).mono (Nat.le_succ k))
          have := hpast.size_advance_lt heof
          omega
        next hstay =>
          refine (hrest q ?_).mono (Nat.le_succ k)
          by_cases hpos : q.current.pos = p.current.pos
          · have hq : q.current.token = .eof := by simpa [hpos] using hstay
            have hle := hpast.rest
            rw [Parser.size_of_ne_eof heof] at hp
            simp only [Parser.size, hq, if_true]
            omega
          · have := hpast.size_lt heof hpos
            omega

end

theorem size_start_le (ls : List Lexeme) : (start ls).size ≤ ls.length :=
  Parser.size_advance_le_rest _

/-- With enough fuel the parser reads the declarations of any text. -/
theorem exists_run_decls (ls : List Lexeme) {fuel : Nat} (hfuel : fuelFor ls.length ≤ fuel) :
    ∃ ds q, (decls fuel).run (start ls) = some (ds, q) := by
  have hends : Ends ls.length (decls fuel) := ends_decls (Nat.le_trans (by
    unfold fuelFor
    omega) hfuel)
  obtain ⟨ds, q, hrun, _⟩ := hends (start ls) (size_start_le ls)
  exact ⟨ds, q, hrun⟩

end Parse

/-- The outcome of parsing a text is that of a run with any fuel that is enough. -/
theorem exists_parseFile_run (name : String) (bytes : List UInt8) :
    ∃ ds q, parseFile name bytes =
        Parsed.ofRun name (Parse.start (lexemes name bytes)) ds q ∧
      ∀ fuel, Parse.fuelFor (lexemes name bytes).length ≤ fuel →
        (Parse.decls fuel).run (Parse.start (lexemes name bytes)) = some (ds, q) := by
  obtain ⟨ds, q, hrun⟩ := Parse.exists_run_decls (lexemes name bytes) (Nat.le_refl _)
  refine ⟨ds, q, by simp [parseFile, parse?, hrun], fun fuel hfuel => ?_⟩
  exact (Parse.follows_decls hfuel _ _ _ hrun).1

/-- Parsing ends on every text, and the fuel plays no part in its outcome. At most ten
faults are counted. The reports are those faults, followed, where there are ten of them, by
one report at the place of the tenth that says that the parser gives up; and the first
fault is the first of the reports. -/
theorem parsing_ends_within_limits (name : String) (bytes : List UInt8) :
    (∀ fuel, Parse.fuelFor (lexemes name bytes).length ≤ fuel →
        parse? fuel name bytes = some (parseFile name bytes)) ∧
      (parseFile name bytes).count ≤ 10 ∧
      (parseFile name bytes).reports.length ≤ 11 ∧
      (∃ faults : List SyntaxError,
        faults.length = (parseFile name bytes).count ∧
        (∀ e ∈ faults, e.message ≠ "too many errors; aborting parse") ∧
        (parseFile name bytes).reports = faults ++
          (faults[9]?.map fun e => ⟨e.pos, "too many errors; aborting parse"⟩).toList) ∧
      (parseFile name bytes).first = (parseFile name bytes).reports.head? ∧
      ((parseFile name bytes).first = none ↔ (parseFile name bytes).reports = []) := by
  obtain ⟨ds, q, hparse, hrun⟩ := exists_parseFile_run name bytes
  obtain ⟨faults, h⟩ := Parse.reported_decls (hrun _ (Nat.le_refl _))
  have hfirst : (parseFile name bytes).first = (parseFile name bytes).reports.head? := by
    rw [hparse]
    exact h.first_reports
  refine ⟨fun fuel hfuel => ?_, ?_, ?_, ?_, hfirst, ?_⟩
  · simp [parse?, hrun fuel hfuel, hparse]
  · rw [hparse]
    exact Nat.le_trans (Nat.le_of_eq h.count) h.limit
  · rw [hparse]
    exact h.length_reports
  · rw [hparse]
    exact ⟨faults, h.count.symm, h.message, h.reports⟩
  · rw [hfirst]
    exact List.head?_eq_none_iff

end ClassLang

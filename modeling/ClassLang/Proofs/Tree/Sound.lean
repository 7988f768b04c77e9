import ClassLang.Proofs.Tree.Words

/-!
What the parser reads without a report has a derivation. Each of its functions that ends
without one has read the terminals of a derivation, and its result is the tree of this
derivation, positions aside.
-/

namespace ClassLang

open Grammar (Terminal Items Items1 headToken eq_mark_cons From)

namespace Parse

variable {α β : Type}

/-- When `m` ends without a report, there was none before, and `Y` relates its result to the
word that was left to read before it and to the one that is left after it. -/
def Yields (m : Parse α) (Y : α → List Terminal → List Terminal → Prop) : Prop :=
  ∀ p a q, m.run p = some (a, q) → q.Clean → p.Clean ∧ ∀ w, p.Sees w → ∃ r, q.Sees r ∧ Y a w r

namespace Yields

variable {m : Parse α} {Y Y' : α → List Terminal → List Terminal → Prop}
  {Z : β → List Terminal → List Terminal → Prop}

theorem failure : Yields failure Y := fun _ _ _ hrun => (run_failure.1 hrun).elim

theorem pure {a : α} (h : ∀ w, Y a w w) : Yields (Pure.pure a) Y := by
  intro p b q hrun hclean
  obtain ⟨rfl, rfl⟩ := run_pure.1 hrun
  exact ⟨hclean, fun w hw => ⟨w, hw, h w⟩⟩

theorem bind {f : α → Parse β} (hm : Yields m Y)
    (hf : ∀ a w, Yields (f a) fun b v r => Y a w v → Z b w r) : Yields (m >>= f) Z := by
  intro p b r hrun hclean
  obtain ⟨a, q, hfirst, hrest⟩ := run_bind.1 hrun
  obtain ⟨hp, hY⟩ := hm p a q hfirst (hf a [] q b r hrest hclean).1
  refine ⟨hp, fun w hw => ?_⟩
  obtain ⟨v, hv, hYv⟩ := hY w hw
  obtain ⟨u, hu, hZ⟩ := (hf a w q b r hrest hclean).2 v hv
  exact ⟨u, hu, hZ hYv⟩

theorem imp (hm : Yields m Y) (h : ∀ a w r, Y a w r → Y' a w r) : Yields m Y' := by
  intro p a q hrun hclean
  obtain ⟨hp, hY⟩ := hm p a q hrun hclean
  refine ⟨hp, fun w hw => ?_⟩
  obtain ⟨r, hr, hYr⟩ := hY w hw
  exact ⟨r, hr, h a w r hYr⟩

theorem map {g : α → β} (hm : Yields m fun a w r => Z (g a) w r) : Yields (g <$> m) Z := by
  rw [map_eq_pure_bind]
  exact hm.bind fun a w => .pure fun v h => h

theorem ite {c : Prop} [Decidable c] {m' : Parse α} (hm : c → Yields m Y)
    (hm' : ¬ c → Yields m' Y) : Yields (if c then m else m') Y := by
  split
  next h => exact hm h
  next h => exact hm' h

end Yields

/-! Steps of the primitives -/

theorem yields_get : Yields (get : Parse Parser) fun p w r => r = w ∧ p.Sees w := by
  intro p a q hrun hclean
  obtain ⟨rfl, rfl⟩ := run_get.1 hrun
  exact ⟨hclean, fun w hw => ⟨w, hw, rfl, hw⟩⟩

theorem yields_token : Yields token fun t w r => r = w ∧ t = headToken w := by
  intro p a q hrun hclean
  obtain ⟨rfl, rfl⟩ := run_token.1 hrun
  exact ⟨hclean, fun w hw => ⟨w, hw, rfl, hw.token⟩⟩

theorem yields_here : Yields here fun _ w r => r = w := by
  intro p a q hrun hclean
  obtain ⟨rfl, rfl⟩ := run_here.1 hrun
  exact ⟨hclean, fun w hw => ⟨w, hw, rfl⟩⟩

theorem yields_aborted : Yields aborted fun b w r => r = w ∧ b = false := by
  intro p a q hrun hclean
  obtain ⟨rfl, rfl⟩ := run_aborted.1 hrun
  exact ⟨hclean, fun w hw => ⟨w, hw, rfl, hclean.2⟩⟩

/-- The end of the text is seen where nothing is left. -/
theorem yields_end : Yields token fun t w r => r = w ∧ (t = .eof → w = []) := by
  intro p a q hrun hclean
  obtain ⟨rfl, rfl⟩ := run_token.1 hrun
  refine ⟨hclean, fun w hw => ⟨w, hw, rfl, fun heof => ?_⟩⟩
  cases w with
  | nil => rfl
  | cons t w => exact absurd heof hw.token_ne_eof

/-- At the end of the text nothing more is read. -/
theorem yields_next : Yields next fun _ w r => r = w.tail := by
  intro p a q hrun hclean
  obtain rfl := run_next.1 hrun
  refine ⟨(steps_advance p).clean hclean, fun w hw => ?_⟩
  cases w with
  | nil =>
      obtain ⟨⟨t, text, kind, pos, faults⟩, rest, reports, count, first, aborted⟩ := p
      obtain rfl : t = .eof := hw.token
      obtain rfl : rest = [] := hw.text.eq_nil rfl
      exact ⟨[], hw, rfl⟩
  | cons t w => exact ⟨w, hw.advance, rfl⟩

/-- `m` never ends without a report. -/
def Faults (m : Parse α) : Prop := ∀ p a q, m.run p = some (a, q) → ¬ q.Clean

theorem faults_report {message : String} {m : Parse α} (hm : Walks m) :
    Faults (report message >>= fun _ => m) := by
  intro p a q hrun hclean
  obtain ⟨_, p', hreport, hrest⟩ := run_bind.1 hrun
  obtain rfl := run_report.1 hreport
  exact not_clean_fault p _ ((hm.steps hrest).clean hclean)

theorem Faults.bind {m : Parse α} {f : α → Parse β} (hf : ∀ a, Faults (f a)) :
    Faults (m >>= f) := by
  intro p b r hrun
  obtain ⟨a, q, _, hrest⟩ := run_bind.1 hrun
  exact hf a q b r hrest

theorem Faults.yields {m : Parse α} {Y : α → List Terminal → List Terminal → Prop}
    (h : Faults m) : Yields m Y := fun p a q hrun hclean => absurd hclean (h p a q hrun)

theorem yields_got (t : Token) : Yields (got t) fun b w r =>
    (b = true → headToken w = t ∧ r = w.tail) ∧ (b = false → headToken w ≠ t ∧ r = w) := by
  refine yields_token.bind fun t' w => .ite (fun ht => ?_) fun ht => ?_
  · refine yields_next.bind fun _ v => .pure ?_
    rintro _ rfl ⟨rfl, rfl⟩
    exact ⟨fun _ => ⟨ht, rfl⟩, by simp⟩
  · refine .pure ?_
    rintro _ ⟨rfl, rfl⟩
    exact ⟨by simp, fun _ => ⟨ht, rfl⟩⟩

/-- A token that is wanted is read. -/
theorem yields_want {t : Token} (ht : t.isMark = true) :
    Yields (want t) fun _ w r => w = .mark t :: r := by
  refine (yields_got t).bind fun b w => ?_
  split
  · exact (Faults.bind fun _ => faults_report walks_recover).yields
  next hb =>
    refine .pure fun v h => ?_
    obtain ⟨hhead, rfl⟩ := h.1 (by simpa using hb)
    exact eq_mark_cons hhead ht

/-- A name is read with its text. -/
theorem yields_ident : Yields ident fun id w r => w = .name id.text :: r := by
  refine yields_get.bind fun p w => ?_
  dsimp only
  refine .ite (fun hname => ?_) fun _ => ?_
  · refine yields_next.bind fun _ v => .pure ?_
    rintro _ rfl ⟨rfl, hsees⟩
    exact hsees.eq_name_cons hname
  · exact (Faults.bind fun _ => faults_report (.pure _)).yields

/-- What follows a step that reads something can rely on being at another place. -/
theorem yields_moved {m : Parse α} {f : Pos → α → Pos → Parse β}
    {Y : α → List Terminal → List Terminal → Prop} {Z : β → List Terminal → List Terminal → Prop}
    (hwalks : Walks m) (hm : Yields m Y) (hY : ∀ a w r, Y a w r → r.length < w.length)
    (hrest : ∀ start a pos, Walks (f start a pos))
    (hf : ∀ start a pos w, pos ≠ start → Yields (f start a pos) fun b v r => Y a w v → Z b w r) :
    Yields (do
      let start ← here
      let a ← m
      let pos ← here
      f start a pos) Z := by
  intro p b q hrun hclean
  obtain ⟨_, _, hhere, hrun⟩ := run_bind.1 hrun
  obtain ⟨rfl, rfl⟩ := run_here.1 hhere
  obtain ⟨a, p', hfirst, hrun⟩ := run_bind.1 hrun
  obtain ⟨_, _, hhere, hrun⟩ := run_bind.1 hrun
  obtain ⟨rfl, rfl⟩ := run_here.1 hhere
  have hclean' := ((hrest _ _ _).steps hrun).clean hclean
  have hsteps := hwalks.steps hfirst
  refine ⟨hsteps.clean hclean', fun w hw => ?_⟩
  obtain ⟨v, hv, hYv⟩ := (hm _ _ _ hfirst hclean').2 w hw
  have hne := hw.pos_ne hv hsteps (hY a w v hYv)
  obtain ⟨r, hr, hZ⟩ := (hf _ a _ w hne _ b q hrun hclean).2 v hv
  exact ⟨r, hr, hZ hYv⟩

/-! Lists and types -/

section

variable {γ δ : Type} {item : Parse α} {bare : α → γ} {tree : δ → γ} {y : δ → List Terminal}

theorem yields_commaList
    (h : Yields item fun x w r => ∃ d, bare x = tree d ∧ w = y d ++ r) (fuel : Nat) :
    Yields (commaList item fuel) fun xs w r =>
      ∃ ds : Items δ, xs.map bare = ds.toList.map tree ∧ w = ds.yield y ++ r := by
  induction fuel with
  | zero => exact .failure
  | succ fuel ih =>
      refine yields_token.bind fun t w => .ite (fun _ => ?_) fun _ => ?_
      · refine .pure ?_
        rintro _ ⟨rfl, _⟩
        exact ⟨.none, rfl, rfl⟩
      · refine h.bind fun x v => (yields_got .comma).bind fun b u =>
          .ite (fun hb => ?_) fun hb => ?_
        · refine .pure ?_
          rintro r hgot ⟨d, hd, rfl⟩ ⟨rfl, _⟩
          obtain ⟨_, rfl⟩ := hgot.2 (by simpa using hb)
          exact ⟨.last d, by simp [Items.toList, hd], rfl⟩
        · refine ih.bind fun xs _ => .pure ?_
          rintro r ⟨ds, hds, rfl⟩ hgot ⟨d, hd, rfl⟩ ⟨rfl, _⟩
          obtain ⟨hcomma, hu⟩ := hgot.1 (by simpa using hb)
          refine ⟨.more d ds, by simp [Items.toList, hd, hds], ?_⟩
          rw [eq_mark_cons hcomma rfl, ← hu]
          simp [Items.yield]

theorem yields_commaList1
    (h : Yields item fun x w r => ∃ d, bare x = tree d ∧ w = y d ++ r) (fuel : Nat) :
    Yields (commaList1 item fuel) fun xs w r =>
      ∃ ds : Items1 δ, xs.map bare = ds.toList.map tree ∧ w = ds.yield y ++ r := by
  induction fuel with
  | zero => exact .failure
  | succ fuel ih =>
      refine h.bind fun x w => (yields_got .comma).bind fun b u => .ite (fun hb => ?_) fun hb => ?_
      · refine .pure ?_
        rintro r hgot ⟨d, hd, rfl⟩
        obtain ⟨_, rfl⟩ := hgot.2 (by simpa using hb)
        exact ⟨.last d, by simp [Items1.toList, hd], rfl⟩
      · refine ih.bind fun xs _ => .pure ?_
        rintro r ⟨ds, hds, rfl⟩ hgot ⟨d, hd, rfl⟩
        obtain ⟨hcomma, hu⟩ := hgot.1 (by simpa using hb)
        refine ⟨.more d ds, by simp [Items1.toList, hd, hds], ?_⟩
        rw [eq_mark_cons hcomma rfl, ← hu]
        simp [Items1.yield]

end

theorem yields_type (fuel : Nat) : Yields (type fuel) fun t w r =>
    ∃ d : Grammar.Ty, t.bare = d.tree ∧ w = d.yield ++ r := by
  induction fuel with
  | zero => exact .failure
  | succ fuel ih =>
      refine yields_ident.bind fun base w => yields_token.bind fun t v =>
        .ite (fun _ => ?_) fun hlss => ?_
      · refine .pure ?_
        rintro r ⟨rfl, _⟩ rfl
        exact ⟨.name base.text, rfl, rfl⟩
      · refine yields_next.bind fun _ u => (yields_commaList1 ih fuel).bind fun args _ =>
          (yields_want rfl).bind fun _ _ => .pure ?_
        rintro r rfl ⟨ds, hds, rfl⟩ htail ⟨rfl, rfl⟩ rfl
        have hlss := eq_mark_cons (by simpa using hlss) (by rfl : Token.lss.isMark = true)
        refine ⟨.apply base.text ds, ?_, ?_⟩
        · rw [TypeExpr.bare, TypeExpr.bareAll_eq, hds, Grammar.Ty.tree, Grammar.Ty.treeAll_eq]
          rfl
        · rw [hlss, ← htail, Grammar.Ty.yield, Grammar.Ty.yieldAll_eq]
          simp

/-! Expressions -/

/-- What the functions that read expressions yield. -/
structure YieldsExprs (fuel : Nat) : Prop where
  binary : ∀ prec n, prec + n = 6 → Yields (binary fuel prec) fun x w r =>
    ∃ d : Grammar.Binary n, x.bare = d.tree ∧ w = d.yield ++ r ∧ From (n + 1) r
  binaryRest : ∀ prec n x, prec + n = 6 → Yields (binaryRest fuel prec x) fun x' w r =>
    ∀ k (d₀ : Grammar.Binary k), k ≤ n → x.bare = d₀.tree → From k w →
      ∃ d : Grammar.Binary n, x'.bare = d.tree ∧ d₀.yield ++ w = d.yield ++ r ∧ From (n + 1) r
  unary : Yields (unary fuel) fun x w r =>
    ∃ d : Grammar.Unary, x.bare = d.tree ∧ w = d.yield ++ r
  suffixes : ∀ x, Yields (suffixes fuel x) fun x' w r => ∀ d₀ : Grammar.Primary,
    x.bare = d₀.tree → ∃ d : Grammar.Primary, x'.bare = d.tree ∧ d₀.yield ++ w = d.yield ++ r
  operand : Yields (operand fuel) fun x w r =>
    ∃ d : Grammar.Operand, x.bare = d.tree ∧ w = d.yield ++ r
  initializer : ∀ cls, Yields (initializer fuel cls) fun x w r =>
    ∃ d : Grammar.Operand, x.bare = d.tree ∧ .name cls.text :: w = d.yield ++ r

namespace YieldsExprs

variable {fuel : Nat}

theorem expr (h : YieldsExprs fuel) : Yields (Parse.binary fuel 0) fun x w r =>
    ∃ d : Grammar.Expr, x.bare = d.tree ∧ w = d.yield ++ r :=
  (h.binary 0 6 rfl).imp fun _ _ _ ⟨d, hd, hw, _⟩ => ⟨d, hd, hw⟩

theorem binary_succ (h : YieldsExprs fuel) {prec n : Nat} (hn : prec + n = 6) :
    Yields (Parse.binary (fuel + 1) prec) fun x w r =>
      ∃ d : Grammar.Binary n, x.bare = d.tree ∧ w = d.yield ++ r ∧ From (n + 1) r := by
  refine h.unary.bind fun x w => (h.binaryRest prec n x hn).imp ?_
  rintro x' v r hrest ⟨d, hd, rfl⟩
  exact hrest 0 (.unary d) (Nat.zero_le n) hd fun _ _ => Nat.zero_le _

theorem binaryRest_succ (h : YieldsExprs fuel) {prec n : Nat} (x : Expr) (hn : prec + n = 6) :
    Yields (Parse.binaryRest (fuel + 1) prec x) fun x' w r =>
      ∀ k (d₀ : Grammar.Binary k), k ≤ n → x.bare = d₀.tree → From k w →
        ∃ d : Grammar.Binary n, x'.bare = d.tree ∧ d₀.yield ++ w = d.yield ++ r ∧
          From (n + 1) r := by
  refine yields_token.bind fun t w => ?_
  split
  next hnone =>
    refine .pure ?_
    rintro _ ⟨rfl, rfl⟩ k d₀ hk hd₀ _
    obtain ⟨d, htree, hyield⟩ := Grammar.exists_binary_of_le hk d₀
    refine ⟨d, hd₀.trans htree.symm, by rw [hyield], fun o ho => ?_⟩
    simp [hnone] at ho
  next op hop =>
    have hlevel := Grammar.precedence_add_level op
    refine .ite (fun hle => ?_) fun hlt => ?_
    · refine .pure ?_
      rintro _ ⟨rfl, rfl⟩ k d₀ hk hd₀ _
      obtain ⟨d, htree, hyield⟩ := Grammar.exists_binary_of_le hk d₀
      refine ⟨d, hd₀.trans htree.symm, by rw [hyield], fun o ho => ?_⟩
      obtain rfl : op = o := Option.some.inj (hop.symm.trans ho)
      omega
    · obtain ⟨m, hm⟩ : ∃ m, Grammar.level op = m + 1 :=
        ⟨Grammar.level op - 1, by cases op <;> rfl⟩
      refine yields_next.bind fun _ v => (h.binary op.precedence m (by omega)).bind fun y u =>
        (h.binaryRest prec n _ hn).imp ?_
      rintro x' u' r hrest ⟨dy, hdy, rfl, hfrom⟩ htail ⟨rfl, rfl⟩ k d₀ hk hd₀ hbefore
      -- the operator joins what stands before it, raised to its level, and its right operand
      obtain ⟨dx, hdx, hyield⟩ := Grammar.exists_binary_of_le (hm ▸ hbefore op hop) d₀
      obtain ⟨htoken, hmark⟩ := Grammar.token_of_ofToken? hop
      have hword : v = .mark op.token :: (dy.yield ++ u') := by
        rw [eq_mark_cons rfl hmark, htoken, ← htail]
      obtain ⟨d, hd, hwhole, hafter⟩ := hrest (m + 1) (.op op hm dx dy) (by omega)
        (by rw [Expr.bare, Grammar.Binary.tree, hd₀, hdx, hdy]) hfrom
      refine ⟨d, hd, ?_, hafter⟩
      rw [← hwhole, hword, Grammar.Binary.yield, hyield]
      simp

theorem unary_succ (h : YieldsExprs fuel) : Yields (Parse.unary (fuel + 1)) fun x w r =>
    ∃ d : Grammar.Unary, x.bare = d.tree ∧ w = d.yield ++ r := by
  refine yields_token.bind fun t w => ?_
  split
  · refine h.operand.bind fun x v => (h.suffixes x).imp ?_
    rintro x' u r hrest ⟨d, hd, rfl⟩ ⟨rfl, _⟩
    obtain ⟨d', hd', hyield⟩ := hrest (.operand d) hd
    exact ⟨.primary d', hd', hyield⟩
  next op hop =>
    refine yields_here.bind fun pos v => yields_next.bind fun _ u => h.unary.bind fun x _ =>
      .pure ?_
    rintro r ⟨d, hd, rfl⟩ htail rfl ⟨rfl, rfl⟩
    obtain ⟨htoken, hmark⟩ := Grammar.unary_of_ofToken? hop
    refine ⟨.op op d, by rw [Expr.bare, hd, Grammar.Unary.tree], ?_⟩
    rw [eq_mark_cons rfl hmark, htoken, ← htail, Grammar.Unary.yield, List.cons_append]

theorem suffixes_succ (h : YieldsExprs fuel) (x : Expr) :
    Yields (Parse.suffixes (fuel + 1) x) fun x' w r => ∀ d₀ : Grammar.Primary,
      x.bare = d₀.tree →
        ∃ d : Grammar.Primary, x'.bare = d.tree ∧ d₀.yield ++ w = d.yield ++ r := by
  refine yields_token.bind fun t w => ?_
  split
  · refine (yields_want rfl).bind fun _ v => yields_token.bind fun t' u =>
      .ite (fun _ => ?_) fun _ => ?_
    · refine (yields_commaList1 h.expr fuel).bind fun args _ =>
        (yields_want rfl).bind fun _ _ => (h.suffixes _).imp ?_
      rintro x' _ r hrest rfl ⟨ds, hds, rfl⟩ ⟨rfl, _⟩ rfl ⟨rfl, _⟩ d₀ hd₀
      obtain ⟨d, hd, hyield⟩ := hrest (.callWith d₀ ds) (by
        rw [Expr.bare, Expr.bareAll_eq, hds, Grammar.Primary.tree, Grammar.Binary.treeAll_eq, hd₀])
      refine ⟨d, hd, ?_⟩
      rw [← hyield, Grammar.Primary.yield, Grammar.Binary.yieldAll_eq]
      simp
    · refine (Yields.pure (Y := fun a w r => a = [] ∧ r = w) fun _ => ⟨rfl, rfl⟩).bind fun args _ =>
        (yields_want rfl).bind fun _ _ => (h.suffixes _).imp ?_
      rintro x' _ r hrest rfl ⟨rfl, rfl⟩ ⟨rfl, _⟩ rfl ⟨rfl, _⟩ d₀ hd₀
      obtain ⟨d, hd, hyield⟩ := hrest (.call d₀) (by
        rw [Expr.bare, hd₀, Grammar.Primary.tree, Expr.bareAll])
      refine ⟨d, hd, ?_⟩
      rw [← hyield, Grammar.Primary.yield]
      simp
  · refine yields_next.bind fun _ v => yields_ident.bind fun sel u => (h.suffixes _).imp ?_
    rintro x' _ r hrest rfl htail ⟨rfl, hdot⟩ d₀ hd₀
    obtain ⟨d, hd, hyield⟩ := hrest (.select d₀ sel.text) (by
      rw [Expr.bare, hd₀, Grammar.Primary.tree]
      rfl)
    refine ⟨d, hd, ?_⟩
    rw [← hyield, eq_mark_cons hdot.symm rfl, ← htail, Grammar.Primary.yield]
    simp
  · refine .pure ?_
    rintro _ ⟨rfl, _⟩ d₀ hd₀
    exact ⟨d₀, hd₀, rfl⟩

theorem operand_succ (h : YieldsExprs fuel) : Yields (Parse.operand (fuel + 1)) fun x w r =>
    ∃ d : Grammar.Operand, x.bare = d.tree ∧ w = d.yield ++ r := by
  refine yields_get.bind fun p w => ?_
  dsimp only
  split
  next hname =>
    refine yields_next.bind fun _ v => yields_token.bind fun t u => .ite (fun _ => ?_) fun _ => ?_
    · refine (h.initializer _).imp ?_
      rintro x _ r ⟨d, hd, hyield⟩ ⟨rfl, _⟩ rfl ⟨rfl, hsees⟩
      exact ⟨d, hd, by rw [← hyield]; exact hsees.eq_name_cons hname⟩
    · refine .pure ?_
      rintro _ ⟨rfl, _⟩ rfl ⟨rfl, hsees⟩
      exact ⟨.name p.current.text, rfl, hsees.eq_name_cons hname⟩
  next hliteral =>
    refine yields_next.bind fun _ v => .pure ?_
    rintro _ rfl ⟨rfl, hsees⟩
    exact ⟨.literal p.current.kind p.current.text, rfl, hsees.eq_literal_cons hliteral⟩
  next hlparen =>
    refine yields_next.bind fun _ v => h.expr.bind fun x u =>
      (yields_want rfl).bind fun _ _ => .pure ?_
    rintro r rfl ⟨d, hd, rfl⟩ htail ⟨rfl, hsees⟩
    refine ⟨.paren d, by rw [Expr.bare, hd, Grammar.Operand.tree], ?_⟩
    rw [eq_mark_cons (hsees.token.symm.trans hlparen) rfl, ← htail, Grammar.Operand.yield]
    simp
  next => exact (Faults.bind fun _ => faults_report (walks_here.bind fun _ => .pure _)).yields

theorem initializer_succ (h : YieldsExprs fuel) (cls : Ident) :
    Yields (Parse.initializer (fuel + 1) cls) fun x w r =>
      ∃ d : Grammar.Operand, x.bare = d.tree ∧ .name cls.text :: w = d.yield ++ r := by
  have helem : Yields (do
      let key ← ident
      want .colon
      let value ← Parse.binary fuel 0
      return (key, value) : Parse (Ident × Expr)) fun e w r =>
        ∃ d : Grammar.Elem, (e.1.bare, e.2.bare) = d.tree ∧ w = d.yield ++ r := by
    refine yields_ident.bind fun key _ => (yields_want rfl).bind fun _ _ =>
      h.expr.bind fun value _ => .pure ?_
    rintro r ⟨d, hd, rfl⟩ rfl rfl
    exact ⟨.mk key.text d, by rw [Grammar.Elem.tree, ← hd]; rfl, rfl⟩
  refine (yields_want rfl).bind fun _ _ => (yields_want rfl).bind fun _ _ =>
    (yields_want rfl).bind fun _ _ => (yields_commaList helem fuel).bind fun elems _ =>
      (yields_want rfl).bind fun _ _ => .pure ?_
  rintro r rfl ⟨ds, hds, rfl⟩ rfl rfl rfl
  refine ⟨.init cls.text ds, ?_, ?_⟩
  · rw [Expr.bare, Expr.bareElems_eq, hds, Grammar.Operand.tree, Grammar.Elem.treeAll_eq]
    rfl
  · rw [Grammar.Operand.yield, Grammar.Elem.yieldAll_eq]
    simp

end YieldsExprs

theorem yieldsExprs (fuel : Nat) : YieldsExprs fuel := by
  induction fuel with
  | zero => exact ⟨fun _ _ _ => .failure, fun _ _ _ _ => .failure, .failure, fun _ => .failure,
      .failure, fun _ => .failure⟩
  | succ fuel ih =>
      exact
        { binary := fun _ _ hn => ih.binary_succ hn
          binaryRest := fun _ _ x hn => ih.binaryRest_succ x hn
          unary := ih.unary_succ
          suffixes := ih.suffixes_succ
          operand := ih.operand_succ
          initializer := ih.initializer_succ }

theorem yields_expr (fuel : Nat) : Yields (expr fuel) fun x w r =>
    ∃ d : Grammar.Expr, x.bare = d.tree ∧ w = d.yield ++ r := (yieldsExprs fuel).expr

/-! Statements -/

/-- What the functions that read statements yield. -/
structure YieldsStmts (fuel : Nat) : Prop where
  stmt : Yields (stmt fuel) fun s w r =>
    ∃ d : Grammar.Stmt, s.bare = d.tree ∧ w = d.yield ++ r
  ifElse : Yields (ifElse fuel) fun s w r =>
    ∃ d : Grammar.If, s.bare = d.tree ∧ w = d.yield ++ r
  block : Yields (block fuel) fun b w r =>
    ∃ d : Grammar.Block, b.bare = d.tree ∧ w = d.yield ++ r
  stmts : Yields (stmts fuel) fun ss w r =>
    ∃ ds : List Grammar.Stmt, ss.map Stmt.bare = ds.map Grammar.Stmt.tree ∧
      w = ds.flatMap Grammar.Stmt.yield ++ r

namespace YieldsStmts

variable {fuel : Nat}

theorem bind_succ {pos : Pos} : Yields (do
    want .kwLet
    let name ← ident
    want .colon
    let type ← type fuel
    want .assign
    let value ← expr fuel
    want .semi
    return .bind pos name type value : Parse Stmt) fun s w r =>
      ∃ d : Grammar.Stmt, s.bare = d.tree ∧ w = d.yield ++ r := by
  refine (yields_want rfl).bind fun _ _ => yields_ident.bind fun name _ =>
    (yields_want rfl).bind fun _ _ => (yields_type fuel).bind fun type _ =>
      (yields_want rfl).bind fun _ _ => (yields_expr fuel).bind fun value _ =>
        (yields_want rfl).bind fun _ _ => .pure ?_
  rintro r rfl ⟨value, hvalue, rfl⟩ rfl ⟨type, htype, rfl⟩ rfl rfl rfl
  refine ⟨.bind name.text type value, ?_, by simp [Grammar.Stmt.yield]⟩
  rw [Stmt.bare, htype, hvalue, Grammar.Stmt.tree]
  rfl

theorem forLoop_succ (h : YieldsStmts fuel) {pos : Pos} : Yields (do
    want .kwFor
    let var ← ident
    want .kwIn
    let start ← here
    want .lbrack
    let low ← expr fuel
    want .comma
    let high ← expr fuel
    want .rbrack
    return .forLoop pos var ⟨start, low, high⟩ (← Parse.block fuel) : Parse Stmt) fun s w r =>
      ∃ d : Grammar.Stmt, s.bare = d.tree ∧ w = d.yield ++ r := by
  refine (yields_want rfl).bind fun _ _ => yields_ident.bind fun var _ =>
    (yields_want rfl).bind fun _ _ => yields_here.bind fun start _ =>
      (yields_want rfl).bind fun _ _ => (yields_expr fuel).bind fun low _ =>
        (yields_want rfl).bind fun _ _ => (yields_expr fuel).bind fun high _ =>
          (yields_want rfl).bind fun _ _ => h.block.bind fun body _ => .pure ?_
  rintro r ⟨body, hbody, rfl⟩ rfl ⟨high, hhigh, rfl⟩ rfl ⟨low, hlow, rfl⟩ rfl rfl rfl rfl rfl
  refine ⟨.forLoop var.text low high body, ?_, by simp [Grammar.Stmt.yield]⟩
  rw [Stmt.bare, hlow, hhigh, hbody, Grammar.Stmt.tree]
  rfl

theorem ret_succ {pos : Pos} : Yields (do
    want .kwReturn
    let t ← token
    let result ←
      if t ≠ .semi && t ≠ .rbrace && t ≠ .eof then some <$> expr fuel else pure none
    want .semi
    return .ret pos result : Parse Stmt) fun s w r =>
      ∃ d : Grammar.Stmt, s.bare = d.tree ∧ w = d.yield ++ r := by
  refine (yields_want rfl).bind fun _ _ => yields_token.bind fun t _ =>
    .ite (fun _ => ?_) fun _ => ?_
  · refine (Yields.map (Z := fun x w r => ∃ d : Grammar.Expr, x.map Expr.bare = some d.tree ∧
      w = d.yield ++ r) ((yields_expr fuel).imp ?_)).bind fun result _ =>
        (yields_want rfl).bind fun _ _ => .pure ?_
    · rintro x w r ⟨d, hd, hw⟩
      exact ⟨d, congrArg some hd, hw⟩
    · rintro r rfl ⟨d, hd, rfl⟩ ⟨rfl, _⟩ rfl
      refine ⟨.ret (some d), by rw [Stmt.bare, hd, Grammar.Stmt.tree]; rfl, ?_⟩
      simp [Grammar.Stmt.yield, Grammar.optional]
  · refine (yields_want rfl).bind fun _ _ => .pure ?_
    rintro r rfl ⟨rfl, _⟩ rfl
    exact ⟨.ret none, rfl, rfl⟩

theorem simple_succ : Yields (do
    let x ← expr fuel
    if ← got .assign then
      let rhs ← expr fuel
      want .semi
      return .assign x rhs
    else
      want .semi
      return .expr x : Parse Stmt) fun s w r =>
      ∃ d : Grammar.Stmt, s.bare = d.tree ∧ w = d.yield ++ r := by
  refine (yields_expr fuel).bind fun x _ => (yields_got _).bind fun b _ =>
    .ite (fun hb => ?_) fun hb => ?_
  · refine (yields_expr fuel).bind fun rhs _ => (yields_want rfl).bind fun _ _ => .pure ?_
    rintro r rfl ⟨rhs, hrhs, rfl⟩ hgot ⟨lhs, hlhs, rfl⟩
    obtain ⟨hassign, htail⟩ := hgot.1 hb
    refine ⟨.assign lhs rhs, by rw [Stmt.bare, hlhs, hrhs, Grammar.Stmt.tree], ?_⟩
    rw [eq_mark_cons hassign rfl, ← htail, Grammar.Stmt.yield]
    simp
  · refine (yields_want rfl).bind fun _ _ => .pure ?_
    rintro r rfl hgot ⟨d, hd, rfl⟩
    obtain ⟨_, rfl⟩ := hgot.2 (by simpa using hb)
    exact ⟨.expr d, by rw [Stmt.bare, hd, Grammar.Stmt.tree], by simp [Grammar.Stmt.yield]⟩

theorem stmt_succ (h : YieldsStmts fuel) : Yields (Parse.stmt (fuel + 1)) fun s w r =>
    ∃ d : Grammar.Stmt, s.bare = d.tree ∧ w = d.yield ++ r := by
  refine yields_here.bind fun pos w => yields_token.bind fun t v => ?_
  have hword : ∀ {m : Parse Stmt}, Yields m (fun s w r =>
        ∃ d : Grammar.Stmt, s.bare = d.tree ∧ w = d.yield ++ r) →
      Yields m fun s u r => u = v ∧ t = headToken v → v = w →
        ∃ d : Grammar.Stmt, s.bare = d.tree ∧ w = d.yield ++ r := by
    intro m hm
    refine hm.imp ?_
    rintro s u r hs ⟨rfl, _⟩ rfl
    exact hs
  split
  · refine hword (h.block.bind fun body _ => .pure ?_)
    rintro r ⟨d, hd, rfl⟩
    exact ⟨.block d, by rw [Stmt.bare, hd, Grammar.Stmt.tree], rfl⟩
  · exact hword bind_succ
  · refine hword (h.ifElse.imp ?_)
    rintro s w r ⟨d, hd, rfl⟩
    exact ⟨.ifElse d, hd, rfl⟩
  · refine hword ((yields_want rfl).bind fun _ _ => (yields_expr fuel).bind fun cond _ =>
      h.block.bind fun body _ => .pure ?_)
    rintro r ⟨body, hbody, rfl⟩ ⟨cond, hcond, rfl⟩ rfl
    refine ⟨.whileLoop cond body, ?_, by simp [Grammar.Stmt.yield]⟩
    rw [Stmt.bare, hcond, hbody, Grammar.Stmt.tree]
  · exact hword h.forLoop_succ
  · exact hword ret_succ
  · refine yields_next.bind fun _ _ => .pure ?_
    rintro r htail ⟨rfl, hsemi⟩ rfl
    exact ⟨.empty, rfl, by rw [eq_mark_cons hsemi.symm rfl, ← htail]; rfl⟩
  · exact hword simple_succ

theorem ifElse_succ (h : YieldsStmts fuel) : Yields (Parse.ifElse (fuel + 1)) fun s w r =>
    ∃ d : Grammar.If, s.bare = d.tree ∧ w = d.yield ++ r := by
  refine yields_here.bind fun pos _ => (yields_want rfl).bind fun _ _ =>
    (yields_expr fuel).bind fun cond _ => h.block.bind fun body _ =>
      (yields_got _).bind fun b _ => .ite (fun hb => ?_) fun hb => ?_
  · refine yields_token.bind fun t _ => .ite (fun _ => ?_) fun _ => ?_
    · refine h.ifElse.bind fun other _ => .pure ?_
      rintro r ⟨other, hother, rfl⟩ ⟨rfl, _⟩ hgot ⟨body, hbody, rfl⟩ ⟨cond, hcond, rfl⟩ rfl rfl
      obtain ⟨helse, htail⟩ := hgot.1 hb
      refine ⟨.mk cond body (.chain other), ?_, ?_⟩
      · rw [Stmt.bare, hcond, hbody, Stmt.bareOther, hother, Grammar.If.tree, Grammar.Else.tree]
      · rw [eq_mark_cons helse rfl, ← htail, Grammar.If.yield, Grammar.Else.yield]
        simp
    · refine h.block.bind fun other _ => .pure ?_
      rintro r ⟨other, hother, rfl⟩ ⟨rfl, _⟩ hgot ⟨body, hbody, rfl⟩ ⟨cond, hcond, rfl⟩ rfl rfl
      obtain ⟨helse, htail⟩ := hgot.1 hb
      refine ⟨.mk cond body (.block other), ?_, ?_⟩
      · rw [Stmt.bare, hcond, hbody, Stmt.bareOther, Stmt.bare, hother, Grammar.If.tree,
          Grammar.Else.tree]
      · rw [eq_mark_cons helse rfl, ← htail, Grammar.If.yield, Grammar.Else.yield]
        simp
  · refine .pure ?_
    rintro r hgot ⟨body, hbody, rfl⟩ ⟨cond, hcond, rfl⟩ rfl rfl
    obtain ⟨_, rfl⟩ := hgot.2 (by simpa using hb)
    refine ⟨.mk cond body .none, ?_, by simp [Grammar.If.yield, Grammar.Else.yield]⟩
    rw [Stmt.bare, hcond, hbody, Stmt.bareOther, Grammar.If.tree, Grammar.Else.tree]

theorem block_succ (h : YieldsStmts fuel) : Yields (Parse.block (fuel + 1)) fun b w r =>
    ∃ d : Grammar.Block, b.bare = d.tree ∧ w = d.yield ++ r := by
  refine yields_here.bind fun pos _ => (yields_want rfl).bind fun _ _ =>
    h.stmts.bind fun body _ => yields_here.bind fun close _ =>
      (yields_want rfl).bind fun _ _ => .pure ?_
  rintro r rfl rfl ⟨ds, hds, rfl⟩ rfl rfl
  refine ⟨.mk ds, ?_, ?_⟩
  · rw [Block.bare, Stmt.bareAll_eq, hds, Grammar.Block.tree, Grammar.Stmt.treeAll_eq]
  · rw [Grammar.Block.yield, Grammar.Stmt.yieldAll_eq]
    simp

/-- Every statement of a block reads something, so no token is dropped. -/
theorem stmts_succ (h : YieldsStmts fuel) : Yields (Parse.stmts (fuel + 1)) fun ss w r =>
    ∃ ds : List Grammar.Stmt, ss.map Stmt.bare = ds.map Grammar.Stmt.tree ∧
      w = ds.flatMap Grammar.Stmt.yield ++ r := by
  have hfollow := followsStmts (Nat.le_refl fuel)
  have hwalks : ∀ s, Walks (do return s :: (← Parse.stmts fuel)) :=
    fun s => hfollow.stmts.bind fun _ => .pure _
  refine yields_token.bind fun t w => yields_aborted.bind fun _ v => .ite (fun _ => ?_) fun _ => ?_
  · refine .pure ?_
    rintro _ ⟨rfl, _⟩ ⟨rfl, _⟩
    exact ⟨[], rfl, rfl⟩
  · refine yields_moved hfollow.stmt h.stmt ?_ (fun _ s _ => .ite (walks_next.bind fun _ =>
      hwalks s) (hwalks s)) fun start s pos u hne => ?_
    · rintro s w r ⟨d, _, rfl⟩
      simpa using List.length_pos_iff.2 d.yield_ne_nil
    · rw [if_neg hne]
      refine h.stmts.bind fun ss _ => .pure ?_
      rintro r ⟨ds, hds, rfl⟩ ⟨d, hd, rfl⟩ ⟨rfl, _⟩ ⟨rfl, _⟩
      exact ⟨d :: ds, by simp [hd, hds], by simp⟩

end YieldsStmts

theorem yieldsStmts (fuel : Nat) : YieldsStmts fuel := by
  induction fuel with
  | zero => exact ⟨.failure, .failure, .failure, .failure⟩
  | succ fuel ih => exact ⟨ih.stmt_succ, ih.ifElse_succ, ih.block_succ, ih.stmts_succ⟩

/-! Declarations -/

/-- A part that may stand behind a colon. -/
theorem yields_afterColon {γ δ : Type} {m : Parse α} {f : Option α → Parse β} {bare : α → γ}
    {tree : δ → γ} {y : δ → List Terminal} {Z : β → List Terminal → List Terminal → Prop}
    (hm : Yields m fun x w r => ∃ d, bare x = tree d ∧ w = y d ++ r)
    (hf : ∀ a w, Yields (f a) fun b v r => (∃ g : Option δ, a.map bare = g.map tree ∧
      w = Grammar.optional [.mark .colon] y g ++ v) → Z b w r) :
    Yields (got .colon >>= fun b => if b = true then (some <$> m) >>= f else pure none >>= f)
      Z := by
  refine (yields_got _).bind fun b w => .ite (fun hb => ?_) fun hb => ?_
  · refine (Yields.map (Z := fun x w r => ∃ d, x.map bare = some (tree d) ∧ w = y d ++ r)
      (hm.imp ?_)).bind fun a v => (hf a w).imp ?_
    · rintro x w r ⟨d, hd, hw⟩
      exact ⟨d, congrArg some hd, hw⟩
    · rintro b u r hrest ⟨d, hd, rfl⟩ hgot
      obtain ⟨hcolon, htail⟩ := hgot.1 hb
      refine hrest ⟨some d, hd, ?_⟩
      rw [eq_mark_cons hcolon rfl, ← htail]
      rfl
  · refine (hf none w).imp ?_
    rintro b' v r hrest hgot
    obtain ⟨_, rfl⟩ := hgot.2 (by simpa using hb)
    exact hrest ⟨none, rfl, rfl⟩

theorem yields_name : Yields ident fun id w r =>
    ∃ text, id.bare = Grammar.ident text ∧ w = [Terminal.name text] ++ r :=
  yields_ident.imp fun id _ _ hw => ⟨id.text, rfl, hw⟩

theorem yields_typeParams (fuel : Nat) : Yields (typeParams fuel) fun ds w r =>
    ∃ gs : Option (Items Grammar.TParam), ds.map TypeParamDecl.bare = Grammar.TParam.listTree gs ∧
      w = Grammar.TParam.listYield gs ++ r := by
  have hparam : Yields (do
      let name ← ident
      let bound ← if ← got .colon then some <$> ident else pure none
      return (⟨name, bound⟩ : TypeParamDecl)) fun d w r =>
        ∃ g : Grammar.TParam, d.bare = g.tree ∧ w = g.yield ++ r := by
    refine yields_ident.bind fun name _ => yields_afterColon yields_name fun bound _ => .pure ?_
    rintro r ⟨g, hg, rfl⟩ rfl
    exact ⟨⟨name.text, g⟩, by rw [TypeParamDecl.bare, hg]; rfl, rfl⟩
  refine (yields_want rfl).bind fun _ _ => (yields_commaList hparam fuel).bind fun ds _ =>
    (yields_want rfl).bind fun _ _ => .pure ?_
  rintro r rfl ⟨gs, hgs, rfl⟩ rfl
  exact ⟨some gs, hgs, by simp [Grammar.TParam.listYield, Grammar.optional]⟩

/-- Type parameters that may be missing. -/
theorem yields_optionalParams {fuel : Nat} {c : Prop} [Decidable c]
    {f : List TypeParamDecl → Parse β} {Z : β → List Terminal → List Terminal → Prop}
    (hf : ∀ ds w, Yields (f ds) fun b v r => (∃ gs : Option (Items Grammar.TParam),
      ds.map TypeParamDecl.bare = Grammar.TParam.listTree gs ∧
        w = Grammar.TParam.listYield gs ++ v) → Z b w r) :
    Yields (if c then typeParams fuel >>= f else pure [] >>= f) Z := by
  refine .ite (fun _ => (yields_typeParams fuel).bind hf) fun _ => ?_
  exact Yields.bind (Y := fun ds w r => ∃ gs : Option (Items Grammar.TParam),
    ds.map TypeParamDecl.bare = Grammar.TParam.listTree gs ∧
      w = Grammar.TParam.listYield gs ++ r) (.pure fun _ => ⟨none, rfl, rfl⟩) hf

theorem yields_field (fuel : Nat) : Yields (field fuel) fun d w r =>
    ∃ g : Grammar.Field, d.bare = g.tree ∧ w = g.yield ++ r := by
  refine yields_ident.bind fun name _ => (yields_want rfl).bind fun _ _ =>
    (yields_type fuel).bind fun type _ => .pure ?_
  rintro r ⟨t, ht, rfl⟩ rfl rfl
  exact ⟨⟨name.text, t⟩, by rw [FieldDecl.bare, ht]; rfl, rfl⟩

/-- A receiver is read with the comma behind it, if there is one. -/
theorem yields_receiver (fuel : Nat) (name : Ident) : Yields (receiver fuel name) fun recv w r =>
    ∃ self, recv.map Ident.bare = some (Grammar.ident self) ∧
      (w = .name self :: r ∧ headToken r = .rparen ∨ w = .name self :: .mark .comma :: r) := by
  have hclose : ∀ recv : Ident, Walks (do
      if (← token) ≠ .rparen then
        want .comma
      return some recv) := fun recv =>
    walks_token.bind fun _ => .ite ((walks_want _).bind fun _ => .pure _) (.pure _)
  refine yields_token.bind fun t _ => .ite (fun _ => ?_) fun _ => ?_
  · exact (faults_report (.pure _)).yields
  · refine yields_ident.bind fun recv _ => yields_token.bind fun t' _ =>
      .ite (fun _ => ?_) fun _ => ?_
    · exact (faults_report (walks_next.bind fun _ =>
        (follows_type (Nat.le_refl fuel)).discard.bind fun _ => hclose recv)).yields
    · refine yields_token.bind fun t'' _ => .ite (fun _ => ?_) fun hrparen => ?_
      · refine (yields_want rfl).bind fun _ _ => .pure ?_
        rintro r rfl ⟨rfl, _⟩ ⟨rfl, _⟩ rfl ⟨rfl, _⟩
        exact ⟨recv.text, rfl, .inr rfl⟩
      · refine .pure ?_
        rintro r ⟨rfl, rfl⟩ ⟨rfl, _⟩ rfl ⟨rfl, _⟩
        exact ⟨recv.text, rfl, .inl ⟨rfl, by simpa using hrparen⟩⟩

/-- What the parameters of a header yield. -/
theorem yields_params (fuel : Nat) (member : Bool) (name : Ident)
    {f : Option Ident → List FieldDecl → Parse β}
    {Z : β → List Terminal → List Terminal → Prop}
    (hf : ∀ recv ds w, Yields (f recv ds) fun b v r => (∃ gs : Grammar.Params member,
      recv.map Ident.bare = gs.recv ∧ ds.map FieldDecl.bare = gs.fields ∧
        w = gs.yield ++ .mark .rparen :: v) → Z b w r) :
    Yields (if member = true then receiver fuel name >>= fun recv =>
        commaList (field fuel) fuel >>= fun ds => want .rparen >>= fun _ => f recv ds
      else pure none >>= fun recv =>
        commaList (field fuel) fuel >>= fun ds => want .rparen >>= fun _ => f recv ds) Z := by
  have hfields := yields_commaList (yields_field fuel) fuel
  cases member with
  | true =>
      refine (yields_receiver fuel name).bind fun recv w => hfields.bind fun ds _ =>
        (yields_want rfl).bind fun _ _ => (hf recv ds w).imp ?_
      rintro b v r hrest rfl ⟨gs, hgs, rfl⟩ ⟨self, hself, ⟨rfl, hrparen⟩ | rfl⟩
      · -- a closing parenthesis right behind the receiver leaves no parameters
        cases gs with
        | none => exact hrest ⟨.receiver self, hself, hgs, rfl⟩
        | last g => simp [Items.yield, Grammar.Field.yield, headToken, Terminal.token] at hrparen
        | more g rest =>
            simp [Items.yield, Grammar.Field.yield, headToken, Terminal.token] at hrparen
      · exact hrest ⟨.receiverWith self gs, hself, hgs, rfl⟩
  | false =>
      refine hfields.bind fun ds w => (yields_want rfl).bind fun _ _ => (hf none ds w).imp ?_
      rintro b v r hrest rfl ⟨gs, hgs, rfl⟩
      exact hrest ⟨.plain gs, rfl, hgs, rfl⟩

theorem yields_signature (fuel : Nat) (member : Bool) :
    Yields (signature fuel member) fun d w r =>
      ∃ g : Grammar.Header member, d.bare = g.tree ∧ w = g.yield ++ r := by
  refine yields_here.bind fun pos _ => (yields_want rfl).bind fun _ _ =>
    yields_ident.bind fun name _ => yields_token.bind fun _ _ =>
      yields_optionalParams fun tparams _ => (yields_want rfl).bind fun _ _ =>
        yields_params fuel member name fun recv params _ =>
          yields_afterColon (yields_type fuel) fun result _ => .pure ?_
  rintro r ⟨t, ht, rfl⟩ ⟨ps, hrecv, hparams, rfl⟩ rfl ⟨ts, hts, rfl⟩ ⟨rfl, _⟩ rfl rfl rfl
  refine ⟨⟨name.text, ts, ps, t⟩, ?_, by simp [Grammar.Header.yield]⟩
  simp [FuncDecl.bare, Grammar.Header.tree, hrecv, hparams, hts, ht, Ident.bare, Grammar.ident]

theorem yields_funcDecl (fuel : Nat) (member : Bool) : Yields (funcDecl fuel member) fun d w r =>
    ∃ g : Grammar.Func member, d.bare = g.tree ∧ w = g.yield ++ r := by
  refine (yields_signature fuel member).bind fun d _ => (yieldsStmts fuel).block.bind fun b _ =>
    .pure ?_
  rintro r ⟨body, hbody, rfl⟩ ⟨header, hheader, rfl⟩
  refine ⟨⟨header, body⟩, ?_, by simp [Grammar.Func.yield]⟩
  rw [Grammar.Func.tree, ← hheader, ← hbody]
  rfl

theorem yields_hostDecl (fuel : Nat) : Yields (hostDecl fuel) fun d w r =>
    ∃ (g : Grammar.Header false) (semi : Bool),
      Decl.bare (.func d) = (Grammar.Decl.host g semi).tree ∧
      w = (Grammar.Decl.host g semi).yield ++ r := by
  have hsemi : Yields (discard (got .semi)) fun _ w r =>
      ∃ semi : Bool, w = (if semi then [Terminal.mark .semi] else []) ++ r := by
    refine Yields.map ((yields_got .semi).imp ?_)
    rintro b w r hgot
    refine ⟨b, ?_⟩
    cases b with
    | true =>
        obtain ⟨hhead, rfl⟩ := hgot.1 rfl
        exact eq_mark_cons hhead rfl
    | false => exact (hgot.2 rfl).2.symm
  refine yields_here.bind fun pos _ => (yields_want rfl).bind fun _ _ =>
    (yields_signature fuel false).bind fun d _ => hsemi.bind fun _ _ => .pure ?_
  rintro r ⟨semi, rfl⟩ ⟨g, hg, rfl⟩ rfl rfl
  refine ⟨g, semi, ?_, by simp [Grammar.Decl.yield]⟩
  rw [Grammar.Decl.tree, ← hg]
  rfl

theorem yields_members {δ : Type} {item : Parse FuncDecl} {tree : δ → FuncDecl}
    {y : δ → List Terminal}
    (h : Yields item fun d w r => ∃ g, d.bare = tree g ∧ w = y g ++ r) (fuel : Nat) :
    Yields (members item fuel) fun ds w r =>
      ∃ gs : List δ, ds.map FuncDecl.bare = gs.map tree ∧ w = gs.flatMap y ++ r := by
  induction fuel with
  | zero => exact .failure
  | succ fuel ih =>
      refine yields_aborted.bind fun _ _ => yields_token.bind fun _ _ =>
        .ite (fun _ => ?_) fun _ => ?_
      · refine .pure ?_
        rintro _ ⟨rfl, _⟩ ⟨rfl, _⟩
        exact ⟨[], rfl, rfl⟩
      · refine h.bind fun d _ => ih.bind fun ds _ => .pure ?_
        rintro r ⟨gs, hgs, rfl⟩ ⟨g, hg, rfl⟩ ⟨rfl, _⟩ ⟨rfl, _⟩
        exact ⟨g :: gs, by simp [hg, hgs], by simp⟩

theorem yields_classDecl (fuel : Nat) : Yields (classDecl fuel) fun d w r =>
    ∃ g : Grammar.Decl, Decl.bare (.cls d) = g.tree ∧ w = g.yield ++ r := by
  refine yields_here.bind fun pos _ => (yields_want rfl).bind fun _ _ =>
    yields_ident.bind fun name _ => yields_token.bind fun _ _ =>
      yields_optionalParams fun tparams _ => yields_afterColon yields_name fun parent _ =>
        (yields_want rfl).bind fun _ _ =>
          (yields_commaList (yields_field fuel) fuel).bind fun fields _ =>
            (yields_members (yields_funcDecl fuel true) fuel).bind fun methods _ =>
              (yields_want rfl).bind fun _ _ => .pure ?_
  rintro r rfl ⟨ms, hms, rfl⟩ ⟨fs, hfs, rfl⟩ rfl ⟨p, hp, rfl⟩ ⟨ts, hts, rfl⟩ ⟨rfl, _⟩ rfl rfl rfl
  refine ⟨.cls name.text ts p fs ms, ?_, by simp [Grammar.Decl.yield]⟩
  simp [Decl.bare, Grammar.Decl.tree, hts, hp, hfs, hms, Ident.bare, Grammar.ident]

theorem yields_boundDecl (fuel : Nat) : Yields (boundDecl fuel) fun d w r =>
    ∃ g : Grammar.Decl, Decl.bare (.bound d) = g.tree ∧ w = g.yield ++ r := by
  have hmethod : Yields (do
      let d ← signature fuel true
      want .semi
      return d) fun d w r => ∃ g : Grammar.Header true, d.bare = g.tree ∧
        w = g.yield ++ [Terminal.mark .semi] ++ r := by
    refine (yields_signature fuel true).bind fun d _ => (yields_want rfl).bind fun _ _ => .pure ?_
    rintro r rfl ⟨g, hg, rfl⟩
    exact ⟨g, hg, by simp⟩
  refine yields_here.bind fun pos _ => (yields_want rfl).bind fun _ _ =>
    yields_ident.bind fun name _ => (yields_want rfl).bind fun _ _ =>
      (yields_members hmethod fuel).bind fun methods _ => (yields_want rfl).bind fun _ _ =>
        .pure ?_
  rintro r rfl ⟨ms, hms, rfl⟩ rfl rfl rfl rfl
  refine ⟨.bound name.text ms, ?_, by simp [Grammar.Decl.yield]⟩
  simp [Decl.bare, Grammar.Decl.tree, hms, Ident.bare, Grammar.ident]

theorem yields_constDecl (fuel : Nat) : Yields (constDecl fuel) fun d w r =>
    ∃ g : Grammar.Decl, Decl.bare (.const d) = g.tree ∧ w = g.yield ++ r := by
  refine yields_here.bind fun pos _ => (yields_want rfl).bind fun _ _ =>
    yields_ident.bind fun name _ => (yields_want rfl).bind fun _ _ =>
      (yields_type fuel).bind fun type _ => (yields_want rfl).bind fun _ _ =>
        (yields_expr fuel).bind fun value _ => (yields_want rfl).bind fun _ _ => .pure ?_
  rintro r rfl ⟨x, hx, rfl⟩ rfl ⟨t, ht, rfl⟩ rfl rfl rfl rfl
  refine ⟨.const name.text t x, ?_, by simp [Grammar.Decl.yield]⟩
  simp [Decl.bare, Grammar.Decl.tree, ht, hx, Ident.bare, Grammar.ident]

theorem yields_decl (fuel : Nat) : Yields (decl fuel) fun d w r =>
    ∃ g : Grammar.Decl, d.map Decl.bare = some g.tree ∧ w = g.yield ++ r := by
  refine yields_token.bind fun t _ => ?_
  split
  · refine (yields_classDecl fuel).bind fun d _ => .pure ?_
    rintro r ⟨g, hg, rfl⟩ ⟨rfl, _⟩
    exact ⟨g, congrArg some hg, rfl⟩
  · refine (yields_boundDecl fuel).bind fun d _ => .pure ?_
    rintro r ⟨g, hg, rfl⟩ ⟨rfl, _⟩
    exact ⟨g, congrArg some hg, rfl⟩
  · refine (yields_funcDecl fuel false).bind fun d _ => .pure ?_
    rintro r ⟨g, hg, rfl⟩ ⟨rfl, _⟩
    exact ⟨.func g, congrArg (some ∘ Decl.func) hg, rfl⟩
  · refine (yields_hostDecl fuel).bind fun d _ => .pure ?_
    rintro r ⟨g, semi, hg, rfl⟩ ⟨rfl, _⟩
    exact ⟨.host g semi, congrArg some hg, rfl⟩
  · refine (yields_constDecl fuel).bind fun d _ => .pure ?_
    rintro r ⟨g, hg, rfl⟩ ⟨rfl, _⟩
    exact ⟨g, congrArg some hg, rfl⟩
  · exact (Faults.bind fun _ => faults_report (walks_recover.bind fun _ => .pure _)).yields

/-- Declarations are read up to the end of the text. -/
theorem yields_decls (fuel : Nat) : Yields (decls fuel) fun ds w _ =>
    ∃ gs : List Grammar.Decl, ds.map Decl.bare = gs.map Grammar.Decl.tree ∧
      w = gs.flatMap Grammar.Decl.yield := by
  induction fuel with
  | zero => exact .failure
  | succ fuel ih =>
      have hwalks : ∀ d : Option Decl, Walks (do return d.toList ++ (← decls fuel)) :=
        fun d => (follows_decls (Nat.le_refl fuel)).bind fun _ => .pure _
      refine yields_aborted.bind fun b _ => yields_end.bind fun t _ =>
        .ite (fun hstop => ?_) fun _ => ?_
      · refine .pure ?_
        rintro _ ⟨rfl, hend⟩ ⟨rfl, rfl⟩
        exact ⟨[], rfl, hend (by simpa using hstop)⟩
      · refine yields_moved (follows_decl (Nat.le_refl fuel)) (yields_decl fuel) ?_
          (fun _ d _ => walks_token.bind fun _ => .ite (walks_next.bind fun _ => hwalks d)
            (hwalks d)) fun start d pos _ hne => yields_token.bind fun t' _ => ?_
        · rintro d w r ⟨g, _, rfl⟩
          simpa using List.length_pos_iff.2 g.yield_ne_nil
        · rw [if_neg (by simp [hne])]
          refine ih.bind fun ds _ => .pure ?_
          rintro r ⟨gs, hgs, rfl⟩ ⟨rfl, _⟩ ⟨g, hg, rfl⟩ ⟨rfl, _⟩ ⟨rfl, _⟩
          obtain ⟨d, rfl, hd⟩ := Option.map_eq_some_iff.1 hg
          exact ⟨g :: gs, by simp [hd, hgs], by simp⟩

end Parse

end ClassLang

import ClassLang.Proofs.Tree.Words

/-!
What has a derivation is read without a report. Where the terminals of a derivation are
followed by something that may follow them, the parser reads exactly these terminals, and
its result is the tree of the derivation, positions aside.
-/

namespace ClassLang

open Grammar (Terminal Items Items1 headToken From After after_mark)

namespace Parse

variable {α β : Type}

/-- Where `w` is left to read and nothing was reported, `m` leaves `r`, reports nothing, and
has a result as `A` says, if it has one at all. -/
def Takes (w : List Terminal) (m : Parse α) (r : List Terminal) (A : α → Prop) : Prop :=
  ∀ p a q, p.Sees w → m.run p = some (a, q) → q.Sees r ∧ A a

namespace Takes

variable {m : Parse α} {w v r : List Terminal} {A A' : α → Prop} {B : β → Prop}

theorem failure : Takes w failure r A := fun _ _ _ _ hrun => (run_failure.1 hrun).elim

theorem pure {a : α} (h : A a) : Takes w (Pure.pure a) w A := by
  intro p b q hp hrun
  obtain ⟨rfl, rfl⟩ := run_pure.1 hrun
  exact ⟨hp, h⟩

theorem bind {f : α → Parse β} (hm : Takes w m v A) (hf : ∀ a, A a → Takes v (f a) r B) :
    Takes w (m >>= f) r B := by
  intro p b q hp hrun
  obtain ⟨a, p', hfirst, hrest⟩ := run_bind.1 hrun
  obtain ⟨hp', ha⟩ := hm p a p' hp hfirst
  exact hf a ha p' b q hp' hrest

theorem imp (hm : Takes w m r A) (h : ∀ a, A a → A' a) : Takes w m r A' := by
  intro p a q hp hrun
  obtain ⟨hq, ha⟩ := hm p a q hp hrun
  exact ⟨hq, h a ha⟩

theorem map {g : α → β} (hm : Takes w m r fun a => B (g a)) : Takes w (g <$> m) r B := by
  rw [map_eq_pure_bind]
  exact hm.bind fun a ha => .pure ha

theorem ite_pos {c : Prop} [Decidable c] {m' : Parse α} (hc : c) (hm : Takes w m r A) :
    Takes w (if c then m else m') r A := by
  rwa [if_pos hc]

theorem ite_neg {c : Prop} [Decidable c] {m' : Parse α} (hc : ¬ c) (hm : Takes w m' r A) :
    Takes w (if c then m else m') r A := by
  rwa [if_neg hc]

end Takes

/-! Steps of the primitives -/

section

variable {w r : List Terminal} {B : β → Prop}

theorem takes_token {f : Token → Parse β} (h : Takes w (f (headToken w)) r B) :
    Takes w (token >>= f) r B := by
  intro p b q hp hrun
  obtain ⟨t, p', htoken, hrest⟩ := run_bind.1 hrun
  obtain ⟨rfl, rfl⟩ := run_token.1 htoken
  rw [hp.token] at hrest
  exact h _ b q hp hrest

theorem takes_here {f : Pos → Parse β} (h : ∀ pos, Takes w (f pos) r B) :
    Takes w (here >>= f) r B := by
  intro p b q hp hrun
  obtain ⟨pos, p', hhere, hrest⟩ := run_bind.1 hrun
  obtain ⟨rfl, rfl⟩ := run_here.1 hhere
  exact h _ _ b q hp hrest

theorem takes_aborted {f : Bool → Parse β} (h : Takes w (f false) r B) :
    Takes w (aborted >>= f) r B := by
  intro p b q hp hrun
  obtain ⟨b', p', haborted, hrest⟩ := run_bind.1 hrun
  obtain ⟨rfl, rfl⟩ := run_aborted.1 haborted
  rw [hp.clean.2] at hrest
  exact h _ b q hp hrest

theorem takes_get {f : Parser → Parse β} (h : ∀ p, p.Sees w → Takes w (f p) r B) :
    Takes w (get >>= f) r B := by
  intro p b q hp hrun
  obtain ⟨_, _, hget, hrest⟩ := run_bind.1 hrun
  obtain ⟨rfl, rfl⟩ := run_get.1 hget
  exact h _ hp _ b q hp hrest

theorem takes_next {t : Terminal} : Takes (t :: r) next r fun _ => True := by
  intro p _ q hp hrun
  obtain rfl := run_next.1 hrun
  exact ⟨hp.advance, trivial⟩

theorem takes_got_of_eq {t : Token} : Takes (.mark t :: r) (got t) r fun b => b = true := by
  intro p b q hp hrun
  have ht : p.current.token = t := hp.token
  rw [run_got_of_eq ht] at hrun
  obtain ⟨rfl, rfl⟩ := Prod.mk.inj (Option.some.inj hrun)
  exact ⟨hp.advance, rfl⟩

theorem takes_got_of_ne {t : Token} (h : headToken w ≠ t) :
    Takes w (got t) w fun b => b = false := by
  intro p b q hp hrun
  rw [run_got_of_ne (hp.token ▸ h)] at hrun
  obtain ⟨rfl, rfl⟩ := Prod.mk.inj (Option.some.inj hrun)
  exact ⟨hp, rfl⟩

theorem takes_want {t : Token} : Takes (.mark t :: r) (want t) r fun _ => True := by
  intro p _ q hp hrun
  have ht : p.current.token = t := hp.token
  rw [run_want_of_eq ht] at hrun
  obtain ⟨rfl, rfl⟩ := Prod.mk.inj (Option.some.inj hrun)
  exact ⟨hp.advance, trivial⟩

theorem takes_ident {text : String} :
    Takes (.name text :: r) ident r fun id => id.bare = Grammar.ident text := by
  intro p id q hp hrun
  rw [run_ident_of_eq hp.token] at hrun
  obtain ⟨rfl, rfl⟩ := Prod.mk.inj (Option.some.inj hrun)
  exact ⟨hp.advance, congrArg Grammar.ident hp.text_eq⟩

/-- What follows a step that reads something is run at another place. -/
theorem takes_moved {m : Parse α} {f : Pos → α → Pos → Parse β} {v : List Terminal} {A : α → Prop}
    (hwalks : Walks m) (hm : Takes w m v A) (hlt : v.length < w.length)
    (hf : ∀ start a pos, A a → pos ≠ start → Takes v (f start a pos) r B) :
    Takes w (do
      let start ← here
      let a ← m
      let pos ← here
      f start a pos) r B := by
  intro p b q hp hrun
  obtain ⟨_, _, hhere, hrun⟩ := run_bind.1 hrun
  obtain ⟨rfl, rfl⟩ := run_here.1 hhere
  obtain ⟨a, p', hfirst, hrun⟩ := run_bind.1 hrun
  obtain ⟨_, _, hhere, hrun⟩ := run_bind.1 hrun
  obtain ⟨rfl, rfl⟩ := run_here.1 hhere
  obtain ⟨hp', ha⟩ := hm _ _ _ hp hfirst
  exact hf _ a _ ha (hp.pos_ne hp' (hwalks.steps hfirst) hlt) _ b q hp' hrun

end

/-! Lists and types -/

section

variable {γ δ : Type} {item : Parse α} {bare : α → γ} {tree : δ → γ} {y : δ → List Terminal}
  {F : List Terminal → Prop}

/-- A list of items that start with a name, each of which `F` may follow. -/
theorem takes_commaList {ds : Items δ}
    (h : ∀ d ∈ ds.toList, ∀ r, F r → Takes (y d ++ r) item r fun x => bare x = tree d)
    (hname : ∀ d ∈ ds.toList, ∀ r, headToken (y d ++ r) = .name)
    (hcomma : ∀ r, F (.mark .comma :: r)) {r : List Terminal} (hr : F r)
    (hmore : headToken r ≠ .comma) (hstart : headToken r ≠ .name) (fuel : Nat) :
    Takes (ds.yield y ++ r) (commaList item fuel) r fun xs => xs.map bare = ds.toList.map tree := by
  induction fuel generalizing ds with
  | zero => exact .failure
  | succ fuel ih =>
      refine takes_token ?_
      cases ds with
      | none => exact .ite_pos hstart (.pure rfl)
      | last d =>
          have hd : d ∈ (Items.last d).toList := List.mem_singleton.2 rfl
          refine .ite_neg (fun hne => hne (hname d hd r)) ((h d hd r hr).bind fun x hx => ?_)
          refine (takes_got_of_ne hmore).bind fun b hb => ?_
          subst hb
          exact .pure (by simp [Items.toList, hx])
      | more d rest =>
          have hd : d ∈ (Items.more d rest).toList := List.mem_cons_self
          have hword : (Items.more d rest).yield y ++ r =
              y d ++ .mark .comma :: (rest.yield y ++ r) := by simp [Items.yield]
          rw [hword]
          refine .ite_neg (fun hne => hne (hname d hd _)) ?_
          refine (h d hd _ (hcomma _)).bind fun x hx => ?_
          refine takes_got_of_eq.bind fun b hb => ?_
          subst hb
          refine (ih (fun d hd => h d (List.mem_cons_of_mem _ hd))
            fun d hd => hname d (List.mem_cons_of_mem _ hd)).bind fun xs hxs => .pure ?_
          simp [Items.toList, hx, hxs]

theorem takes_commaList1 {ds : Items1 δ}
    (h : ∀ d ∈ ds.toList, ∀ r, F r → Takes (y d ++ r) item r fun x => bare x = tree d)
    (hcomma : ∀ r, F (.mark .comma :: r)) {r : List Terminal} (hr : F r)
    (hmore : headToken r ≠ .comma) (fuel : Nat) :
    Takes (ds.yield y ++ r) (commaList1 item fuel) r
      fun xs => xs.map bare = ds.toList.map tree := by
  induction fuel generalizing ds with
  | zero => exact .failure
  | succ fuel ih =>
      cases ds with
      | last d =>
          refine (h d (List.mem_singleton.2 rfl) r hr).bind fun x hx => ?_
          refine (takes_got_of_ne hmore).bind fun b hb => ?_
          subst hb
          exact .pure (by simp [Items1.toList, hx])
      | more d rest =>
          have hword : (Items1.more d rest).yield y ++ r =
              y d ++ .mark .comma :: (rest.yield y ++ r) := by simp [Items1.yield]
          rw [hword]
          refine (h d List.mem_cons_self _ (hcomma _)).bind fun x hx => ?_
          refine takes_got_of_eq.bind fun b hb => ?_
          subst hb
          refine (ih fun d hd => h d (List.mem_cons_of_mem _ hd)).bind fun xs hxs => .pure ?_
          simp [Items1.toList, hx, hxs]

end

mutual

theorem takes_type : ∀ (d : Grammar.Ty) (fuel : Nat) {r : List Terminal}, headToken r ≠ .lss →
    Takes (d.yield ++ r) (type fuel) r fun t => t.bare = d.tree
  | _, 0, _, _ => .failure
  | .name text, fuel + 1, r, hr => by
      refine takes_ident.bind fun base hbase => takes_token (.ite_pos hr (.pure ?_))
      rw [TypeExpr.bare, hbase, Grammar.Ty.tree]
  | .apply base args, fuel + 1, r, _ => by
      have hword : (Grammar.Ty.apply base args).yield ++ r = .name base :: .mark .lss ::
          (args.yield Grammar.Ty.yield ++ .mark .gtr :: r) := by
        simp [Grammar.Ty.yield, Grammar.Ty.yieldAll_eq]
      rw [hword]
      refine takes_ident.bind fun id hid => takes_token (.ite_neg (fun h => h rfl) ?_)
      refine takes_next.bind fun _ _ => ?_
      refine (takes_commaList1 (F := fun r => headToken r ≠ .lss) (takes_types args fuel)
        (fun _ h => Token.noConfusion h) (fun h => Token.noConfusion h)
        (fun h => Token.noConfusion h) fuel).bind fun ts hts => ?_
      refine takes_want.bind fun _ _ => .pure ?_
      rw [TypeExpr.bare, hid, TypeExpr.bareAll_eq, hts, Grammar.Ty.tree, Grammar.Ty.treeAll_eq]

theorem takes_types : ∀ (ds : Items1 Grammar.Ty) (fuel : Nat), ∀ d ∈ ds.toList, ∀ r,
    headToken r ≠ .lss → Takes (d.yield ++ r) (type fuel) r fun t => t.bare = d.tree
  | .last d, fuel, d', hd', r, hr => by
      rw [List.mem_singleton.1 hd']
      exact takes_type d fuel hr
  | .more d rest, fuel, d', hd', r, hr => by
      rcases List.mem_cons.1 hd' with hd' | hd'
      · rw [hd']
        exact takes_type d fuel hr
      · exact takes_types rest fuel d' hd' r hr

end

/-! Expressions -/

/-- Operators that bind looser end an expression. -/
theorem takes_stop {prec n : Nat} (hn : prec + n = 6) {r : List Terminal} (hr : From (n + 1) r)
    (fuel : Nat) (x : Expr) : Takes r (binaryRest fuel prec x) r fun y => y = x := by
  cases fuel with
  | zero => exact .failure
  | succ fuel =>
      refine takes_token ?_
      split
      · exact .pure rfl
      next op hop =>
        have hlevel := Grammar.precedence_add_level op
        have hlow := hr op hop
        exact .ite_pos (by omega) (.pure rfl)

/-- An expression ends where no operator of its levels follows. -/
theorem takes_binary_of {prec n : Nat} (hn : prec + n = 6) {d : Grammar.Binary n}
    {r : List Terminal} (hr : After (n + 1) r)
    (h : ∀ fuel fuel', prec + n ≤ 6 → After n r → (∀ fuel x, x.bare = d.tree →
        Takes r (binaryRest fuel prec x) r fun y => y.bare = d.tree) →
      Takes (d.yield ++ r) (unary fuel >>= binaryRest fuel' prec) r fun y => y.bare = d.tree)
    (fuel : Nat) : Takes (d.yield ++ r) (binary fuel prec) r fun y => y.bare = d.tree := by
  cases fuel with
  | zero => exact .failure
  | succ fuel =>
      refine h fuel fuel (Nat.le_of_eq hn) (hr.mono (Nat.le_succ n)) fun fuel x hx => ?_
      refine (takes_stop hn hr.op fuel x).imp ?_
      rintro _ rfl
      exact hx

/-- An operand ends where neither a call nor a selection follows. -/
theorem takes_suffixes_end {r : List Terminal} (hlparen : headToken r ≠ .lparen)
    (hdot : headToken r ≠ .dot) (fuel : Nat) (x : Expr) :
    Takes r (suffixes fuel x) r fun y => y = x := by
  cases fuel with
  | zero => exact .failure
  | succ fuel =>
      refine takes_token ?_
      split
      next h => exact absurd h hlparen
      next h => exact absurd h hdot
      next => exact .pure rfl

/-- Arguments do not start with a closing parenthesis. -/
theorem head_args (args : Items1 Grammar.Expr) (r : List Terminal) :
    headToken (args.yield Grammar.Binary.yield ++ r) ≠ .rparen := by
  have hfirst : ∀ (x : Grammar.Expr) (w : List Terminal), headToken (x.yield ++ w) ≠ .rparen := by
    intro x w h
    have hstart := x.starts w
    rw [h] at hstart
    cases hstart
  cases args with
  | last x => exact hfirst x r
  | more x rest =>
      rw [Items1.yield, List.append_assoc]
      exact hfirst x _

mutual

/-- An expression is read as the left operand of what follows it. -/
theorem takes_binaryThen : ∀ {n : Nat} (d : Grammar.Binary n) {prec : Nat} {r r' : List Terminal}
    {A : Expr → Prop} (fuel fuel' : Nat), prec + n ≤ 6 → After n r →
    (∀ fuel x, x.bare = d.tree → Takes r (binaryRest fuel prec x) r' A) →
    Takes (d.yield ++ r) (unary fuel >>= binaryRest fuel' prec) r' A
  | _, .unary x, prec, r, r', A, fuel, fuel', _, hr, hrest =>
      (takes_unary x fuel hr.lparen hr.dot hr.colon).bind fun y hy => hrest fuel' y hy
  | _, .lift x, prec, r, r', A, fuel, fuel', hn, hr, hrest =>
      takes_binaryThen x fuel fuel' (by omega) (hr.mono (Nat.le_succ _)) hrest
  | _, .op (n := n) o h x y, prec, r, r', A, fuel, fuel', hn, hr, hrest => by
      have hlevel := Grammar.precedence_add_level o
      rw [Grammar.Binary.yield, List.append_assoc, List.cons_append]
      refine takes_binaryThen x fuel fuel' hn (Grammar.after_op (Nat.le_of_eq h.symm))
        fun fuel x' hx' => ?_
      cases fuel with
      | zero => exact .failure
      | succ fuel =>
          refine takes_token ?_
          simp only [headToken, Terminal.token, Grammar.ofToken?_token]
          refine .ite_neg (by omega) (takes_next.bind fun _ _ => ?_)
          refine (takes_binary_of (by omega) hr (takes_binaryThen y) fuel).bind fun y' hy' =>
            hrest fuel _ ?_
          rw [Expr.bare, hx', hy', Grammar.Binary.tree]
termination_by structural _ d => d

theorem takes_unary : ∀ (d : Grammar.Unary) (fuel : Nat) {r : List Terminal},
    headToken r ≠ .lparen → headToken r ≠ .dot → headToken r ≠ .colon →
    Takes (d.yield ++ r) (unary fuel) r fun x => x.bare = d.tree
  | _, 0, _, _, _, _ => .failure
  | .primary x, fuel + 1, r, hlparen, hdot, hcolon => by
      have hnone : UnaryOp.ofToken? (headToken (x.yield ++ r)) = none := by
        rcases x.starts r with h | h | h <;> rw [h] <;> rfl
      rw [Grammar.Unary.yield]
      refine takes_token ?_
      rw [hnone]
      refine takes_primaryThen x fuel fuel hcolon fun fuel x' hx' => ?_
      refine (takes_suffixes_end hlparen hdot fuel x').imp ?_
      rintro _ rfl
      exact hx'
  | .op o x, fuel + 1, r, hlparen, hdot, hcolon => by
      refine takes_token ?_
      simp only [Grammar.Unary.yield, List.cons_append, headToken, Terminal.token,
        Grammar.unaryOfToken?_token]
      refine takes_here fun pos => takes_next.bind fun _ _ => ?_
      refine (takes_unary x fuel hlparen hdot hcolon).bind fun y hy => .pure ?_
      rw [Expr.bare, hy, Grammar.Unary.tree]
termination_by structural d => d

/-- An operand is read as the first part of the calls and selections behind it. -/
theorem takes_primaryThen : ∀ (d : Grammar.Primary) {r r' : List Terminal} {A : Expr → Prop}
    (fuel fuel' : Nat), headToken r ≠ .colon →
    (∀ fuel x, x.bare = d.tree → Takes r (suffixes fuel x) r' A) →
    Takes (d.yield ++ r) (operand fuel >>= suffixes fuel') r' A
  | .operand x, r, r', A, fuel, fuel', hr, hrest =>
      (takes_operand x fuel hr).bind fun y hy => hrest fuel' y hy
  | .call fn, r, r', A, fuel, fuel', _, hrest => by
      rw [Grammar.Primary.yield, List.append_assoc]
      refine takes_primaryThen fn fuel fuel' (fun h => Token.noConfusion h) fun fuel x hx => ?_
      cases fuel with
      | zero => exact .failure
      | succ fuel =>
          refine takes_token (takes_want.bind fun _ _ => takes_token ?_)
          refine .ite_neg (fun hne => hne rfl) (takes_want.bind fun _ _ => hrest fuel _ ?_)
          rw [Expr.bare, hx, Expr.bareAll, Grammar.Primary.tree]
  | .callWith fn args, r, r', A, fuel, fuel', _, hrest => by
      have hword : (Grammar.Primary.callWith fn args).yield ++ r = fn.yield ++ .mark .lparen ::
          (args.yield Grammar.Binary.yield ++ .mark .rparen :: r) := by
        simp [Grammar.Primary.yield, Grammar.Binary.yieldAll_eq]
      rw [hword]
      refine takes_primaryThen fn fuel fuel' (fun h => Token.noConfusion h) fun fuel x hx => ?_
      cases fuel with
      | zero => exact .failure
      | succ fuel =>
          refine takes_token (takes_want.bind fun _ _ => takes_token ?_)
          refine .ite_pos (head_args args _) ?_
          refine (takes_commaList1 (takes_args args fuel) (fun _ => after_mark (by decide))
            (after_mark (by decide)) (fun h => Token.noConfusion h) fuel).bind fun xs hxs => ?_
          refine takes_want.bind fun _ _ => hrest fuel _ ?_
          rw [Expr.bare, hx, Expr.bareAll_eq, hxs, Grammar.Primary.tree, Grammar.Binary.treeAll_eq]
  | .select x sel, r, r', A, fuel, fuel', _, hrest => by
      rw [Grammar.Primary.yield, List.append_assoc]
      refine takes_primaryThen x fuel fuel' (fun h => Token.noConfusion h) fun fuel y hy => ?_
      cases fuel with
      | zero => exact .failure
      | succ fuel =>
          refine takes_token (takes_next.bind fun _ _ => takes_ident.bind fun id hid =>
            hrest fuel _ ?_)
          rw [Expr.bare, hy, hid, Grammar.Primary.tree]
termination_by structural d => d

theorem takes_operand : ∀ (d : Grammar.Operand) (fuel : Nat) {r : List Terminal},
    headToken r ≠ .colon → Takes (d.yield ++ r) (operand fuel) r fun x => x.bare = d.tree
  | _, 0, _, _ => .failure
  | .name text, fuel + 1, r, hr => by
      refine takes_get fun p hp => ?_
      have hname : p.current.token = .name := hp.token
      dsimp only
      rw [hname]
      refine takes_next.bind fun _ _ => takes_token (.ite_neg hr (.pure ?_))
      exact congrArg (fun text => Expr.name (Grammar.ident text)) hp.text_eq
  | .literal kind text, fuel + 1, r, _ => by
      refine takes_get fun p hp => ?_
      have hliteral : p.current.token = .literal := hp.token
      obtain ⟨hkind, htext⟩ := hp.literal_eq
      dsimp only
      rw [hliteral]
      refine takes_next.bind fun _ _ => .pure ?_
      rw [Expr.bare, hkind, htext, Grammar.Operand.tree]
  | .paren x, fuel + 1, r, _ => by
      have hword : (Grammar.Operand.paren x).yield ++ r =
          .mark .lparen :: (x.yield ++ .mark .rparen :: r) := by simp [Grammar.Operand.yield]
      rw [hword]
      refine takes_get fun p hp => ?_
      have hlparen : p.current.token = .lparen := hp.token
      dsimp only
      rw [hlparen]
      have hr : After 7 (.mark .rparen :: r) :=
        after_mark (by decide)
      refine takes_next.bind fun _ _ => (takes_binary_of rfl hr (takes_binaryThen x) fuel).bind
        fun y hy => takes_want.bind fun _ _ => .pure ?_
      rw [Expr.bare, hy, Grammar.Operand.tree]
  | .init cls elems, fuel + 1, r, _ => by
      have hword : (Grammar.Operand.init cls elems).yield ++ r = .name cls :: .mark .colon ::
          .mark .kwInit :: .mark .lparen ::
            (elems.yield Grammar.Elem.yield ++ .mark .rparen :: r) := by
        simp [Grammar.Operand.yield, Grammar.Elem.yieldAll_eq]
      rw [hword]
      refine takes_get fun p hp => ?_
      have hname : p.current.token = .name := hp.token
      dsimp only
      rw [hname, hp.text_eq]
      refine takes_next.bind fun _ _ => takes_token (.ite_pos rfl ?_)
      cases fuel with
      | zero => exact .failure
      | succ fuel =>
          refine takes_want.bind fun _ _ => takes_want.bind fun _ _ => takes_want.bind fun _ _ => ?_
          refine (takes_commaList (F := After 7) (takes_elems elems fuel)
            (fun d _ r => by cases d; rfl) (fun _ => after_mark (by decide))
            (after_mark (by decide)) (fun h => Token.noConfusion h) (fun h => Token.noConfusion h)
            fuel).bind fun es hes => ?_
          refine takes_want.bind fun _ _ => .pure ?_
          rw [Expr.bare, Expr.bareElems_eq, hes, Grammar.Operand.tree, Grammar.Elem.treeAll_eq]
          rfl
termination_by structural d => d

theorem takes_args : ∀ (ds : Items1 (Grammar.Binary 6)) (fuel : Nat), ∀ d ∈ ds.toList, ∀ r,
    After 7 r → Takes (d.yield ++ r) (binary fuel 0) r fun x => x.bare = d.tree
  | .last d, fuel, d', hd', r, hr => by
      rw [List.mem_singleton.1 hd']
      exact takes_binary_of rfl hr (takes_binaryThen d) fuel
  | .more d rest, fuel, d', hd', r, hr => by
      rcases List.mem_cons.1 hd' with hd' | hd'
      · rw [hd']
        exact takes_binary_of rfl hr (takes_binaryThen d) fuel
      · exact takes_args rest fuel d' hd' r hr
termination_by structural ds => ds

theorem takes_elem : ∀ (d : Grammar.Elem) (fuel : Nat) {r : List Terminal}, After 7 r →
    Takes (d.yield ++ r) (do
      let key ← ident
      want .colon
      let value ← binary fuel 0
      return (key, value) : Parse (Ident × Expr)) r fun e => (e.1.bare, e.2.bare) = d.tree
  | .mk key value, fuel, r, hr => by
      refine takes_ident.bind fun id hid => takes_want.bind fun _ _ => ?_
      refine (takes_binary_of rfl hr (takes_binaryThen value) fuel).bind fun x hx => .pure ?_
      rw [hid, hx, Grammar.Elem.tree]
termination_by structural d => d

theorem takes_elems : ∀ (ds : Items Grammar.Elem) (fuel : Nat), ∀ d ∈ ds.toList, ∀ r, After 7 r →
    Takes (d.yield ++ r) (do
      let key ← ident
      want .colon
      let value ← binary fuel 0
      return (key, value) : Parse (Ident × Expr)) r fun e => (e.1.bare, e.2.bare) = d.tree
  | .last d, fuel, d', hd', r, hr => by
      rw [List.mem_singleton.1 hd']
      exact takes_elem d fuel hr
  | .more d rest, fuel, d', hd', r, hr => by
      rcases List.mem_cons.1 hd' with hd' | hd'
      · rw [hd']
        exact takes_elem d fuel hr
      · exact takes_elems rest fuel d' hd' r hr
termination_by structural ds => ds

end

theorem takes_expr (d : Grammar.Expr) (fuel : Nat) {r : List Terminal} (hr : After 7 r) :
    Takes (d.yield ++ r) (expr fuel) r fun x => x.bare = d.tree :=
  takes_args (.last d) fuel d (List.mem_singleton.2 rfl) r hr

/-! Statements -/

/-- A block may follow an expression. -/
theorem after_block {n : Nat} (d : Grammar.Block) (w : List Terminal) :
    After n (d.yield ++ w) := by
  cases d
  exact after_mark (by decide)

/-- Statements in a block are never followed by another branch. -/
theorem head_stmts (ds : List Grammar.Stmt) (r : List Terminal) :
    headToken (ds.flatMap Grammar.Stmt.yield ++ .mark .rbrace :: r) ≠ .kwElse := by
  intro h
  cases ds with
  | nil => cases h
  | cons d ds =>
      have hstart := d.starts (ds.flatMap Grammar.Stmt.yield ++ .mark .rbrace :: r)
      rw [List.flatMap_cons, List.append_assoc] at h
      rw [h] at hstart
      cases hstart

/-- A statement that is no more than an expression or an assignment. -/
theorem takes_simple {x : Grammar.Expr} {w r : List Terminal} {A : Stmt → Prop} (fuel : Nat)
    (h : ∀ y, y.bare = x.tree → Takes w (do
      if ← got .assign then
        let rhs ← expr fuel
        want .semi
        return .assign y rhs
      else
        want .semi
        return .expr y : Parse Stmt) r A) (hw : After 7 w) :
    Takes (x.yield ++ w) (stmt (fuel + 1)) r A := by
  have hstart := x.starts w
  refine takes_here fun pos => takes_token ?_
  -- no other statement starts with a token that an expression starts with
  split
  case h_8 => exact (takes_expr x fuel hw).bind h
  all_goals
    rename_i htoken
    rw [htoken] at hstart
    cases hstart

mutual

theorem takes_stmt : ∀ (d : Grammar.Stmt) (fuel : Nat) {r : List Terminal},
    headToken r ≠ .kwElse → Takes (d.yield ++ r) (stmt fuel) r fun s => s.bare = d.tree
  | _, 0, _, _ => .failure
  | .empty, fuel + 1, r, _ =>
      takes_here fun pos => takes_token (takes_next.bind fun _ _ => .pure rfl)
  | .expr x, fuel + 1, r, _ => by
      rw [Grammar.Stmt.yield, List.append_assoc]
      refine takes_simple fuel (fun y hy => ?_) (after_mark (by decide))
      refine (takes_got_of_ne (fun h => Token.noConfusion h)).bind fun b hb => ?_
      subst hb
      refine takes_want.bind fun _ _ => .pure ?_
      rw [Stmt.bare, hy, Grammar.Stmt.tree]
  | .bind name type value, fuel + 1, r, _ => by
      have hword : (Grammar.Stmt.bind name type value).yield ++ r = .mark .kwLet :: .name name ::
          .mark .colon :: (type.yield ++ .mark .assign :: (value.yield ++ .mark .semi :: r)) := by
        simp [Grammar.Stmt.yield]
      rw [hword]
      refine takes_here fun pos => takes_token (takes_want.bind fun _ _ => ?_)
      refine takes_ident.bind fun id hid => takes_want.bind fun _ _ => ?_
      refine (takes_type type fuel (fun h => Token.noConfusion h)).bind fun t ht => ?_
      refine takes_want.bind fun _ _ => (takes_expr value fuel (after_mark (by decide))).bind fun x hx => ?_
      refine takes_want.bind fun _ _ => .pure ?_
      rw [Stmt.bare, hid, ht, hx, Grammar.Stmt.tree]
  | .assign lhs rhs, fuel + 1, r, _ => by
      have hword : (Grammar.Stmt.assign lhs rhs).yield ++ r =
          lhs.yield ++ .mark .assign :: (rhs.yield ++ .mark .semi :: r) := by
        simp [Grammar.Stmt.yield]
      rw [hword]
      refine takes_simple fuel (fun y hy => ?_) (after_mark (by decide))
      refine takes_got_of_eq.bind fun b hb => ?_
      subst hb
      refine (takes_expr rhs fuel (after_mark (by decide))).bind fun x hx => takes_want.bind fun _ _ => .pure ?_
      rw [Stmt.bare, hy, hx, Grammar.Stmt.tree]
  | .block (.mk ss), fuel + 1, r, _ => by
      refine takes_here fun pos => takes_token ((takes_block (.mk ss) fuel).bind fun b hb => ?_)
      refine .pure ?_
      rw [Stmt.bare, hb, Grammar.Stmt.tree]
  | .ifElse (.mk cond body other), fuel + 1, r, hr =>
      takes_here fun pos => takes_token (takes_if (.mk cond body other) fuel hr)
  | .whileLoop cond body, fuel + 1, r, _ => by
      have hword : (Grammar.Stmt.whileLoop cond body).yield ++ r =
          .mark .kwWhile :: (cond.yield ++ (body.yield ++ r)) := by simp [Grammar.Stmt.yield]
      rw [hword]
      refine takes_here fun pos => takes_token (takes_want.bind fun _ _ => ?_)
      refine (takes_expr cond fuel (after_block body r)).bind fun x hx => ?_
      refine (takes_block body fuel).bind fun b hb => .pure ?_
      rw [Stmt.bare, hx, hb, Grammar.Stmt.tree]
  | .forLoop var low high body, fuel + 1, r, _ => by
      have hword : (Grammar.Stmt.forLoop var low high body).yield ++ r = .mark .kwFor ::
          .name var :: .mark .kwIn :: .mark .lbrack :: (low.yield ++ .mark .comma ::
            (high.yield ++ .mark .rbrack :: (body.yield ++ r))) := by simp [Grammar.Stmt.yield]
      rw [hword]
      refine takes_here fun pos => takes_token (takes_want.bind fun _ _ => ?_)
      refine takes_ident.bind fun id hid => takes_want.bind fun _ _ => ?_
      refine takes_here fun start => takes_want.bind fun _ _ => ?_
      refine (takes_expr low fuel (after_mark (by decide))).bind fun x hx => takes_want.bind fun _ _ => ?_
      refine (takes_expr high fuel (after_mark (by decide))).bind fun y hy => takes_want.bind fun _ _ => ?_
      refine (takes_block body fuel).bind fun b hb => .pure ?_
      rw [Stmt.bare, hid, hx, hy, hb, Grammar.Stmt.tree]
  | .ret none, fuel + 1, r, _ => by
      refine takes_here fun pos => takes_token (takes_want.bind fun _ _ => takes_token ?_)
      refine .ite_neg (fun h => Bool.noConfusion h) (takes_want.bind fun _ _ => .pure ?_)
      rfl
  | .ret (some x), fuel + 1, r, _ => by
      have hword : (Grammar.Stmt.ret (some x)).yield ++ r =
          .mark .kwReturn :: (x.yield ++ .mark .semi :: r) := by
        simp [Grammar.Stmt.yield, Grammar.optional]
      have hresult : ∀ t : Token, t.startsExpr = true →
          (t ≠ .semi && t ≠ .rbrace && t ≠ .eof) = true := by
        intro t ht
        cases t <;> first | rfl | cases ht
      rw [hword]
      refine takes_here fun pos => takes_token (takes_want.bind fun _ _ => takes_token ?_)
      refine .ite_pos (hresult _ (x.starts _)) ?_
      refine (Takes.map (B := fun y => y.map Expr.bare = some x.tree)
        ((takes_expr x fuel (after_mark (by decide))).imp fun y hy => congrArg some hy)).bind fun y hy => ?_
      refine takes_want.bind fun _ _ => .pure ?_
      rw [Stmt.bare, hy, Grammar.Stmt.tree]
      rfl

theorem takes_if : ∀ (d : Grammar.If) (fuel : Nat) {r : List Terminal},
    headToken r ≠ .kwElse → Takes (d.yield ++ r) (ifElse fuel) r fun s => s.bare = d.tree
  | _, 0, _, _ => .failure
  | .mk cond body other, fuel + 1, r, hr => by
      have hword : (Grammar.If.mk cond body other).yield ++ r =
          .mark .kwIf :: (cond.yield ++ (body.yield ++ (other.yield ++ r))) := by
        simp [Grammar.If.yield]
      rw [hword]
      refine takes_here fun pos => takes_want.bind fun _ _ => ?_
      refine (takes_expr cond fuel (after_block body _)).bind fun x hx => ?_
      refine (takes_block body fuel).bind fun b hb => ?_
      cases other with
      | none =>
          refine (takes_got_of_ne hr).bind fun more hmore => ?_
          subst hmore
          refine .pure ?_
          rw [Stmt.bare, hx, hb, Stmt.bareOther, Grammar.If.tree, Grammar.Else.tree]
      | chain i =>
          refine takes_got_of_eq.bind fun more hmore => ?_
          subst hmore
          have hif : headToken (i.yield ++ r) = .kwIf := by cases i; rfl
          refine takes_token (.ite_pos hif ((takes_if i fuel hr).bind fun s hs => .pure ?_))
          rw [Stmt.bare, hx, hb, Stmt.bareOther, hs, Grammar.If.tree, Grammar.Else.tree]
      | block last =>
          refine takes_got_of_eq.bind fun more hmore => ?_
          subst hmore
          have hblock : headToken (last.yield ++ r) ≠ .kwIf := by
            cases last
            exact fun h => Token.noConfusion h
          refine takes_token (.ite_neg hblock ((takes_block last fuel).bind fun l hl => .pure ?_))
          rw [Stmt.bare, hx, hb, Stmt.bareOther, Stmt.bare, hl, Grammar.If.tree,
            Grammar.Else.tree]

theorem takes_block : ∀ (d : Grammar.Block) (fuel : Nat) {r : List Terminal},
    Takes (d.yield ++ r) (block fuel) r fun b => b.bare = d.tree
  | _, 0, _ => .failure
  | .mk ss, fuel + 1, r => by
      have hword : (Grammar.Block.mk ss).yield ++ r =
          .mark .lbrace :: (ss.flatMap Grammar.Stmt.yield ++ .mark .rbrace :: r) := by
        simp [Grammar.Block.yield, Grammar.Stmt.yieldAll_eq]
      rw [hword]
      refine takes_here fun pos => takes_want.bind fun _ _ => ?_
      refine (takes_stmts ss fuel).bind fun body hbody => takes_here fun close => ?_
      refine takes_want.bind fun _ _ => .pure ?_
      rw [Block.bare, Stmt.bareAll_eq, hbody, Grammar.Block.tree, Grammar.Stmt.treeAll_eq]

theorem takes_stmts : ∀ (ds : List Grammar.Stmt) (fuel : Nat) {r : List Terminal},
    Takes (ds.flatMap Grammar.Stmt.yield ++ .mark .rbrace :: r) (stmts fuel) (.mark .rbrace :: r)
      fun ss => ss.map Stmt.bare = ds.map Grammar.Stmt.tree
  | _, 0, _ => .failure
  | [], fuel + 1, r => takes_token (takes_aborted (.pure rfl))
  | d :: ds, fuel + 1, r => by
      have hgo : ∀ t : Token, t.startsStmt = true →
          ¬ (false || t = .rbrace || t = .eof) = true := by
        intro t ht
        cases t <;> first | decide | cases ht
      rw [List.flatMap_cons, List.append_assoc]
      refine takes_token (takes_aborted (.ite_neg (hgo _ (d.starts _)) ?_))
      refine takes_moved (followsStmts (Nat.le_refl fuel)).stmt
        (takes_stmt d fuel (head_stmts ds r))
        (by simpa using List.length_pos_iff.2 d.yield_ne_nil) fun start s pos hs hne => ?_
      refine .ite_neg hne ((takes_stmts ds fuel).bind fun ss hss => .pure ?_)
      rw [List.map_cons, hs, hss, List.map_cons]

end

/-! Declarations -/

/-- A part that may stand behind a colon. -/
theorem takes_afterColon {γ δ : Type} {m : Parse α} {f : Option α → Parse β} {bare : α → γ}
    {tree : δ → γ} {y : δ → List Terminal} {g : Option δ} {r r' : List Terminal} {B : β → Prop}
    (hm : ∀ d, g = some d → Takes (y d ++ r) m r fun x => bare x = tree d)
    (hr : headToken r ≠ .colon)
    (hf : ∀ a, a.map bare = g.map tree → Takes r (f a) r' B) :
    Takes (Grammar.optional [.mark .colon] y g ++ r)
      (got .colon >>= fun b => if b = true then (some <$> m) >>= f else pure none >>= f) r' B := by
  cases g with
  | none =>
      refine (takes_got_of_ne hr).bind fun b hb => .ite_neg (by simp [hb]) ?_
      exact hf none rfl
  | some d =>
      refine takes_got_of_eq.bind fun b hb => .ite_pos hb ?_
      exact (Takes.map (B := fun x => x.map bare = some (tree d))
        ((hm d rfl).imp fun x hx => congrArg some hx)).bind hf

theorem takes_typeParams (ds : Items Grammar.TParam) (fuel : Nat) {r : List Terminal} :
    Takes (Grammar.TParam.listYield (some ds) ++ r) (typeParams fuel) r
      fun ts => ts.map TypeParamDecl.bare = Grammar.TParam.listTree (some ds) := by
  have hword : Grammar.TParam.listYield (some ds) ++ r =
      .mark .lss :: (ds.yield Grammar.TParam.yield ++ .mark .gtr :: r) := by
    simp [Grammar.TParam.listYield, Grammar.optional]
  have hparam : ∀ d ∈ ds.toList, ∀ r, headToken r ≠ .colon → Takes (d.yield ++ r) (do
      let name ← ident
      let bound ← if ← got .colon then some <$> ident else pure none
      return (⟨name, bound⟩ : TypeParamDecl)) r fun t => t.bare = d.tree := by
    intro d _ r hr
    refine takes_ident.bind fun id hid => ?_
    refine takes_afterColon (y := fun b => [.name b]) (fun _ _ => takes_ident) hr fun b hb => ?_
    refine .pure ?_
    rw [TypeParamDecl.bare, hid, hb, Grammar.TParam.tree]
  rw [hword]
  refine takes_want.bind fun _ _ => ?_
  refine (takes_commaList hparam (fun _ _ _ => rfl) (fun _ h => Token.noConfusion h)
    (fun h => Token.noConfusion h) (fun h => Token.noConfusion h)
    (fun h => Token.noConfusion h) fuel).bind fun ts hts => ?_
  exact takes_want.bind fun _ _ => .pure hts

/-- Type parameters that may be missing. -/
theorem takes_optionalParams {ds : Option (Items Grammar.TParam)} {fuel : Nat}
    {f : List TypeParamDecl → Parse β} {r r' : List Terminal} {B : β → Prop}
    (hr : headToken r ≠ .lss)
    (hf : ∀ ts, ts.map TypeParamDecl.bare = Grammar.TParam.listTree ds → Takes r (f ts) r' B) :
    Takes (Grammar.TParam.listYield ds ++ r)
      (token >>= fun t => if t = .lss then typeParams fuel >>= f else pure [] >>= f) r' B := by
  refine takes_token ?_
  cases ds with
  | none => exact .ite_neg hr (hf [] rfl)
  | some ds => exact .ite_pos rfl ((takes_typeParams ds fuel).bind hf)

theorem takes_fields (ds : Items Grammar.Field) (fuel : Nat) {r : List Terminal}
    (hlss : headToken r ≠ .lss) (hcomma : headToken r ≠ .comma) (hname : headToken r ≠ .name) :
    Takes (ds.yield Grammar.Field.yield ++ r) (commaList (field fuel) fuel) r
      fun fs => fs.map FieldDecl.bare = ds.toList.map Grammar.Field.tree := by
  refine takes_commaList (F := fun r => headToken r ≠ .lss) (fun d _ r hr => ?_) (fun _ _ _ => rfl)
    (fun _ h => Token.noConfusion h) hlss hcomma hname fuel
  refine takes_ident.bind fun id hid => takes_want.bind fun _ _ => ?_
  refine (takes_type d.type fuel hr).bind fun t ht => .pure ?_
  rw [FieldDecl.bare, hid, ht, Grammar.Field.tree]

/-- A receiver is read with the comma behind it, if there is one. -/
theorem takes_receiver {self : String} (fuel : Nat) (name : Ident) {r : List Terminal} :
    Takes (.name self :: .mark .rparen :: r) (receiver fuel name) (.mark .rparen :: r)
      fun recv => recv.map Ident.bare = some (Grammar.ident self) := by
  refine takes_token (.ite_neg (fun hne => hne rfl) (takes_ident.bind fun id hid => ?_))
  refine takes_token (.ite_neg (fun h => Token.noConfusion h) (takes_token ?_))
  exact .ite_neg (fun hne => hne rfl) (.pure (congrArg some hid))

@[inherit_doc takes_receiver]
theorem takes_receiver_comma {self : String} (fuel : Nat) (name : Ident) {r : List Terminal} :
    Takes (.name self :: .mark .comma :: r) (receiver fuel name) r
      fun recv => recv.map Ident.bare = some (Grammar.ident self) := by
  refine takes_token (.ite_neg (fun hne => hne rfl) (takes_ident.bind fun id hid => ?_))
  refine takes_token (.ite_neg (fun h => Token.noConfusion h) (takes_token ?_))
  exact .ite_pos (fun h => Token.noConfusion h)
    (takes_want.bind fun _ _ => .pure (congrArg some hid))

/-- The parameters of a header, up to their closing parenthesis. -/
theorem takes_params {member : Bool} (ds : Grammar.Params member) (fuel : Nat) (name : Ident)
    {f : Option Ident → List FieldDecl → Parse β} {r r' : List Terminal} {B : β → Prop}
    (hf : ∀ recv fs, recv.map Ident.bare = ds.recv → fs.map FieldDecl.bare = ds.fields →
      Takes r (f recv fs) r' B) :
    Takes (ds.yield ++ .mark .rparen :: r)
      (if member = true then receiver fuel name >>= fun recv =>
        commaList (field fuel) fuel >>= fun ds => want .rparen >>= fun _ => f recv ds
      else pure none >>= fun recv =>
        commaList (field fuel) fuel >>= fun ds => want .rparen >>= fun _ => f recv ds) r' B := by
  have hfields : ∀ (ds : Items Grammar.Field) (g : List FieldDecl → Parse β),
      (∀ fs, fs.map FieldDecl.bare = ds.toList.map Grammar.Field.tree → Takes r (g fs) r' B) →
      Takes (ds.yield Grammar.Field.yield ++ .mark .rparen :: r)
        (commaList (field fuel) fuel >>= fun fs => want .rparen >>= fun _ => g fs) r' B :=
    fun ds g hg => (takes_fields ds fuel (fun h => Token.noConfusion h)
      (fun h => Token.noConfusion h) fun h => Token.noConfusion h).bind fun fs hfs =>
        takes_want.bind fun _ _ => hg fs hfs
  cases ds with
  | plain ds =>
      refine .ite_neg (fun h => Bool.noConfusion h) (hfields ds (f none) fun fs hfs => ?_)
      exact hf none fs rfl hfs
  | receiver self =>
      refine .ite_pos rfl ((takes_receiver fuel name).bind fun recv hrecv => ?_)
      exact hfields .none (f recv) fun fs hfs => hf recv fs hrecv hfs
  | receiverWith self ds =>
      refine .ite_pos rfl ((takes_receiver_comma fuel name).bind fun recv hrecv => ?_)
      exact hfields ds (f recv) fun fs hfs => hf recv fs hrecv hfs

theorem takes_signature {member : Bool} (d : Grammar.Header member) (fuel : Nat)
    {r : List Terminal} (hlss : headToken r ≠ .lss) (hcolon : headToken r ≠ .colon) :
    Takes (d.yield ++ r) (signature fuel member) r fun f => f.bare = d.tree := by
  have hword : d.yield ++ r = .mark .kwFun :: .name d.name :: (Grammar.TParam.listYield d.tparams ++
      .mark .lparen :: (d.params.yield ++ .mark .rparen ::
        (Grammar.optional [.mark .colon] Grammar.Ty.yield d.result ++ r))) := by
    simp [Grammar.Header.yield]
  rw [hword]
  refine takes_here fun pos => takes_want.bind fun _ _ => takes_ident.bind fun id hid => ?_
  refine takes_optionalParams (fun h => Token.noConfusion h) fun ts hts => ?_
  refine takes_want.bind fun _ _ => takes_params d.params fuel id fun recv fs hrecv hfs => ?_
  refine takes_afterColon (fun t _ => takes_type t fuel hlss) hcolon fun t ht => .pure ?_
  simp [FuncDecl.bare, Grammar.Header.tree, hid, hrecv, hfs, hts, ht]

theorem takes_funcDecl {member : Bool} (d : Grammar.Func member) (fuel : Nat)
    {r : List Terminal} :
    Takes (d.yield ++ r) (funcDecl fuel member) r fun f => f.bare = d.tree := by
  obtain ⟨header, ⟨ss⟩⟩ := d
  rw [Grammar.Func.yield, List.append_assoc]
  refine (takes_signature header fuel (fun h => Token.noConfusion h)
    (fun h => Token.noConfusion h)).bind fun f hf => ?_
  refine (takes_block (.mk ss) fuel).bind fun b hb => .pure ?_
  rw [Grammar.Func.tree, ← hf, ← hb]
  rfl

theorem takes_hostDecl (d : Grammar.Header false) (semi : Bool) (fuel : Nat)
    {r : List Terminal} (hsemi : headToken r ≠ .semi) (hlss : headToken r ≠ .lss)
    (hcolon : headToken r ≠ .colon) :
    Takes ((Grammar.Decl.host d semi).yield ++ r) (hostDecl fuel) r
      fun f => Decl.bare (.func f) = (Grammar.Decl.host d semi).tree := by
  rw [Grammar.Decl.yield, List.cons_append, List.append_assoc]
  refine takes_here fun pos => takes_want.bind fun _ _ => ?_
  cases semi with
  | true =>
      refine (takes_signature d fuel (fun h => Token.noConfusion h)
        (fun h => Token.noConfusion h)).bind fun f hf => ?_
      refine (Takes.map (B := fun _ => True) (takes_got_of_eq.imp fun _ _ => trivial)).bind
        fun _ _ => .pure ?_
      rw [Grammar.Decl.tree, ← hf]
      rfl
  | false =>
      refine (takes_signature d fuel hlss hcolon).bind fun f hf => ?_
      refine (Takes.map (B := fun _ => True) ((takes_got_of_ne hsemi).imp fun _ _ => trivial)).bind
        fun _ _ => .pure ?_
      rw [Grammar.Decl.tree, ← hf]
      rfl

theorem takes_members {δ : Type} {item : Parse FuncDecl} {tree : δ → FuncDecl}
    {y : δ → List Terminal} (h : ∀ d r, Takes (y d ++ r) item r fun f => f.bare = tree d)
    (hfun : ∀ d r, headToken (y d ++ r) = .kwFun) {r : List Terminal}
    (hr : headToken r ≠ .kwFun) (ds : List δ) (fuel : Nat) :
    Takes (ds.flatMap y ++ r) (members item fuel) r
      fun fs => fs.map FuncDecl.bare = ds.map tree := by
  induction fuel generalizing ds with
  | zero => exact .failure
  | succ fuel ih =>
      refine takes_aborted (takes_token ?_)
      cases ds with
      | nil => exact .ite_pos (by simpa using hr) (.pure rfl)
      | cons d ds =>
          rw [List.flatMap_cons, List.append_assoc]
          refine .ite_neg (by simp [hfun]) ((h d _).bind fun f hf => (ih ds).bind fun fs hfs => ?_)
          refine .pure ?_
          rw [List.map_cons, hf, hfs, List.map_cons]

theorem takes_decl (d : Grammar.Decl) (fuel : Nat) {r : List Terminal}
    (hsemi : headToken r ≠ .semi) (hlss : headToken r ≠ .lss) (hcolon : headToken r ≠ .colon) :
    Takes (d.yield ++ r) (decl fuel) r fun x => x.map Decl.bare = some d.tree := by
  cases d with
  | cls name tparams parent fields methods =>
      have hword : (Grammar.Decl.cls name tparams parent fields methods).yield ++ r =
          .mark .kwClass :: .name name :: (Grammar.TParam.listYield tparams ++
            (Grammar.optional [.mark .colon] (fun p => [.name p]) parent ++ .mark .lbrace ::
              (fields.yield Grammar.Field.yield ++ (methods.flatMap Grammar.Func.yield ++
                .mark .rbrace :: r)))) := by simp [Grammar.Decl.yield]
      have hparent : headToken (Grammar.optional [.mark .colon] (fun p => [.name p]) parent ++
          .mark .lbrace :: (fields.yield Grammar.Field.yield ++
            (methods.flatMap Grammar.Func.yield ++ .mark .rbrace :: r))) ≠ .lss := by
        cases parent <;> exact fun h => Token.noConfusion h
      have hmethods : ∀ t : Token, t ≠ .kwFun → t ≠ .rbrace →
          headToken (methods.flatMap Grammar.Func.yield ++ .mark .rbrace :: r) ≠ t := by
        intro t hfun hrbrace
        cases methods with
        | nil => exact hrbrace.symm
        | cons m ms => exact hfun.symm
      rw [hword]
      refine takes_token (Takes.bind (A := fun x => Decl.bare (.cls x) = _) ?_ fun x hx =>
        .pure (congrArg some hx))
      refine takes_here fun pos => takes_want.bind fun _ _ => takes_ident.bind fun id hid => ?_
      refine takes_optionalParams hparent fun ts hts => ?_
      refine takes_afterColon (y := fun p => [.name p]) (fun _ _ => takes_ident)
        (fun h => Token.noConfusion h) fun p hp => takes_want.bind fun _ _ => ?_
      refine (takes_fields fields fuel (hmethods _ (by decide) (by decide))
        (hmethods _ (by decide) (by decide)) (hmethods _ (by decide) (by decide))).bind
          fun fs hfs => ?_
      refine (takes_members (fun d r => takes_funcDecl d fuel) (fun _ _ => rfl)
        (fun h => Token.noConfusion h) methods fuel).bind fun ms hms => ?_
      refine takes_want.bind fun _ _ => .pure ?_
      simp [Decl.bare, Grammar.Decl.tree, hid, hts, hp, hfs, hms]
  | bound name methods =>
      have hword : (Grammar.Decl.bound name methods).yield ++ r = .mark .kwBound :: .name name ::
          .mark .lbrace :: (methods.flatMap (fun m => m.yield ++ [.mark .semi]) ++
            .mark .rbrace :: r) := by simp [Grammar.Decl.yield]
      have hmethod : ∀ (d : Grammar.Header true) (r : List Terminal),
          Takes ((d.yield ++ [.mark .semi]) ++ r) (do
            let d ← signature fuel true
            want .semi
            return d) r fun f => f.bare = d.tree := by
        intro d r
        rw [List.append_assoc]
        refine (takes_signature d fuel (fun h => Token.noConfusion h)
          (fun h => Token.noConfusion h)).bind fun f hf => ?_
        exact takes_want.bind fun _ _ => .pure hf
      rw [hword]
      refine takes_token (Takes.bind (A := fun x => Decl.bare (.bound x) = _) ?_ fun x hx =>
        .pure (congrArg some hx))
      refine takes_here fun pos => takes_want.bind fun _ _ => takes_ident.bind fun id hid => ?_
      refine takes_want.bind fun _ _ => ?_
      refine (takes_members hmethod (fun _ _ => rfl) (fun h => Token.noConfusion h) methods
        fuel).bind fun ms hms => ?_
      refine takes_want.bind fun _ _ => .pure ?_
      simp [Decl.bare, Grammar.Decl.tree, hid, hms]
  | func f =>
      exact takes_token ((takes_funcDecl f fuel).bind fun x hx =>
        .pure (congrArg (fun f => some (Decl.func f)) hx))
  | host header semi =>
      exact takes_token ((takes_hostDecl header semi fuel hsemi hlss hcolon).bind fun x hx =>
        .pure (congrArg some hx))
  | const name type value =>
      have hword : (Grammar.Decl.const name type value).yield ++ r = .mark .kwConst ::
          .name name :: .mark .colon :: (type.yield ++ .mark .assign ::
            (value.yield ++ .mark .semi :: r)) := by simp [Grammar.Decl.yield]
      rw [hword]
      refine takes_token (Takes.bind (A := fun x => Decl.bare (.const x) = _) ?_ fun x hx =>
        .pure (congrArg some hx))
      refine takes_here fun pos => takes_want.bind fun _ _ => takes_ident.bind fun id hid => ?_
      refine takes_want.bind fun _ _ => ?_
      refine (takes_type type fuel (fun h => Token.noConfusion h)).bind fun t ht => ?_
      refine takes_want.bind fun _ _ => (takes_expr value fuel (after_mark (by decide))).bind fun x hx => ?_
      refine takes_want.bind fun _ _ => .pure ?_
      simp [Decl.bare, Grammar.Decl.tree, hid, ht, hx]

/-- Declarations are read up to the end of the text. -/
theorem takes_decls (ds : List Grammar.Decl) (fuel : Nat) :
    Takes (ds.flatMap Grammar.Decl.yield) (decls fuel) []
      fun xs => xs.map Decl.bare = ds.map Grammar.Decl.tree := by
  induction fuel generalizing ds with
  | zero => exact .failure
  | succ fuel ih =>
      refine takes_aborted (takes_token ?_)
      cases ds with
      | nil => exact .ite_pos rfl (.pure rfl)
      | cons d ds =>
          have hstart : ∀ r, headToken (d.yield ++ r) ≠ .eof := by
            intro r
            cases d <;> exact fun h => Token.noConfusion h
          have hnext : headToken (ds.flatMap Grammar.Decl.yield) ≠ .semi ∧
              headToken (ds.flatMap Grammar.Decl.yield) ≠ .lss ∧
              headToken (ds.flatMap Grammar.Decl.yield) ≠ .colon := by
            cases ds with
            | nil => exact ⟨by decide, by decide, by decide⟩
            | cons d' ds =>
                refine ⟨?_, ?_, ?_⟩
                all_goals cases d' <;> exact fun h => Token.noConfusion h
          rw [List.flatMap_cons]
          refine .ite_neg (by simp [hstart]) ?_
          refine takes_moved (follows_decl (Nat.le_refl fuel))
            (takes_decl d fuel hnext.1 hnext.2.1 hnext.2.2)
            (by simpa using List.length_pos_iff.2 d.yield_ne_nil) fun start x pos hx hne => ?_
          refine takes_token (.ite_neg (by simp [hne]) ((ih ds).bind fun xs hxs => .pure ?_))
          obtain ⟨x, rfl, hbare⟩ := Option.map_eq_some_iff.1 hx
          simp [hbare, hxs]

end Parse

end ClassLang

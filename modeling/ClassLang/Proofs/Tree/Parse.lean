import ClassLang.Proofs.Token.Places
import ClassLang.Proofs.Tree.Ends
import ClassLang.Proofs.Tree.Shape

/-!
What the tree of a text is known to be like if nothing was reported. Names are read
in source order, each from a lexeme of its own, so the places where a unit declares
its members and variables are all different; and a method has a receiver and a body.
-/

namespace ClassLang

namespace Parser

/-- Where the lexemes start that have not been read. -/
def ahead (p : Parser) : List Pos := Lexeme.places (p.current :: p.rest)

end Parser

namespace Parse

variable {α β : Type}

/-- When `m` ends without a report, there was none before. It has then read names at some
places, in this order and to be read only once, and `B` relates its result to them. -/
def ReadsAt (p : Parser) (m : Parse α) (B : α → List Pos → Prop) : Prop :=
  ∀ a q, m.run p = some (a, q) → q.Clean →
    p.Clean ∧ ∃ l, B a l ∧ (l ++ q.ahead).Sublist p.ahead

@[inherit_doc ReadsAt]
def Reads (m : Parse α) (B : α → List Pos → Prop) : Prop := ∀ p, ReadsAt p m B

/-- What `m` reads does not matter. -/
abbrev Silent (m : Parse α) : Prop := Reads m fun _ l => l = []

namespace Reads

variable {m : Parse α} {B B' : α → List Pos → Prop} {C : β → List Pos → Prop}

theorem failure : Reads failure B := fun _ _ _ hrun => (run_failure.1 hrun).elim

theorem pure {a : α} (h : B a []) : Reads (Pure.pure a) B := by
  intro p b q hrun hclean
  obtain ⟨rfl, rfl⟩ := run_pure.1 hrun
  exact ⟨hclean, [], h, List.Sublist.refl _⟩

theorem bind {f : α → Parse β} (hm : Reads m B)
    (hf : ∀ a l, Reads (f a) fun b r => B a l → C b (l ++ r)) : Reads (m >>= f) C := by
  intro p b r hrun hclean
  obtain ⟨a, q, hfirst, hrest⟩ := run_bind.1 hrun
  obtain ⟨hstart, l, hB, hsub⟩ := hm p a q hfirst (hf a [] q b r hrest hclean).1
  obtain ⟨_, l', hC, hsub'⟩ := hf a l q b r hrest hclean
  refine ⟨hstart, l ++ l', hC hB, ?_⟩
  rw [List.append_assoc]
  exact (hsub'.append_left l).trans hsub

theorem imp (hm : Reads m B) (h : ∀ a l, B a l → ∃ l', B' a l' ∧ l'.Sublist l) : Reads m B' := by
  intro p a q hrun hclean
  obtain ⟨hstart, l, hB, hsub⟩ := hm p a q hrun hclean
  obtain ⟨l', hB', hl⟩ := h a l hB
  exact ⟨hstart, l', hB', (hl.append_right _).trans hsub⟩

/-- What a step reads that is not kept. -/
theorem skip {f : α → Parse β} (hm : Silent m) (hf : ∀ a, Reads (f a) C) :
    Reads (m >>= f) C := by
  refine bind hm fun a l => Reads.imp (hf a) fun b r hC => ⟨r, ?_, List.Sublist.refl r⟩
  rintro rfl
  exact hC

theorem silent (hm : Reads m B) : Silent m :=
  hm.imp fun _ l _ => ⟨[], rfl, List.nil_sublist l⟩

theorem map {g : α → β} (hm : Silent m) : Silent (g <$> m) := by
  rw [map_eq_pure_bind]
  exact hm.skip fun _ => .pure rfl

theorem ite {c : Prop} [Decidable c] {m' : Parse α} (hm : Reads m B) (hm' : Reads m' B) :
    Reads (if c then m else m') B := by
  split
  · exact hm
  · exact hm'

theorem discard (hm : Silent m) : Silent (discard m) := hm.map

end Reads

/-! Steps of the parser -/

/-- Advancing without a report reads exactly the current lexeme. -/
theorem advance_clean {p : Parser} (h : (advance p).Clean) :
    p.Clean ∧ (advance p).ahead = Lexeme.places p.rest := by
  unfold advance at h ⊢
  split at h
  next hrest => exact ⟨h, by simp [hrest, Parser.ahead, Lexeme.places]⟩
  next l rest hrest =>
    have hnil : l.faults = [] := clean_foldl_fault h
    rw [hnil] at h ⊢
    exact ⟨h, by simp [hrest, Parser.ahead]⟩

theorem silent_next : Silent next := by
  intro p a q hrun hclean
  obtain rfl := run_next.1 hrun
  obtain ⟨hstart, hahead⟩ := advance_clean hclean
  refine ⟨hstart, [], rfl, ?_⟩
  rw [List.nil_append, hahead]
  exact ((List.sublist_cons_self _ _).filter _).map _

theorem silent_get : Silent (get : Parse Parser) := by
  intro p a q hrun hclean
  obtain ⟨rfl, rfl⟩ := run_get.1 hrun
  exact ⟨hclean, [], rfl, List.Sublist.refl _⟩

theorem silent_token : Silent token := (silent_get).skip fun _ => .pure rfl

theorem silent_here : Silent here := (silent_get).skip fun _ => .pure rfl

theorem silent_aborted : Silent aborted := (silent_get).skip fun _ => .pure rfl

/-- A step that reports promises anything. -/
theorem reads_report {message : String} {B : Unit → List Pos → Prop} :
    Reads (report message) B := by
  intro p a q hrun hclean
  obtain rfl := run_report.1 hrun
  exact absurd hclean (not_clean_fault p _)

theorem silent_found : Silent found := by
  refine (silent_get).skip fun p => ?_
  dsimp only
  split
  · exact .pure rfl
  · exact .pure rfl
  · exact .pure rfl

theorem silent_skip (fuel : Nat) : Silent (skip fuel) := by
  induction fuel with
  | zero => exact .failure
  | succ fuel ih =>
      refine (silent_token).skip fun t => ?_
      split
      · exact .pure rfl
      · refine (silent_next).skip fun _ => ?_
        split
        · exact .pure rfl
        · exact ih

theorem silent_recover : Silent recover := (silent_get).skip fun _ => silent_skip _

theorem silent_got (t : Token) : Silent (got t) := by
  refine (silent_token).skip fun _ => ?_
  split
  · exact (silent_next).skip fun _ => .pure rfl
  · exact .pure rfl

theorem silent_want (t : Token) : Silent (want t) := by
  refine (silent_got t).skip fun _ => ?_
  split
  · exact (silent_found).skip fun _ => (reads_report).skip fun _ => silent_recover
  · exact .pure rfl

/-- What follows a report does not matter. -/
theorem reads_of_report {message : String} {m : Parse α} {B : α → List Pos → Prop}
    (hm : Silent m) : Reads (report message >>= fun _ => m) B :=
  (reads_report (B := fun _ _ => False)).bind fun _ _ =>
    hm.imp fun _ l _ => ⟨l, False.elim, List.Sublist.refl l⟩

/-- The lexeme that is read is the current one. -/
theorem readsAt_next {p : Parser} {a : α} {B : α → List Pos → Prop}
    (htoken : p.current.token ≠ .eof) (h : B a [p.current.pos]) :
    ReadsAt p (next >>= fun _ => pure a) B := by
  intro b r hrun hclean
  obtain ⟨_, q, hnext, hpure⟩ := run_bind.1 hrun
  obtain rfl := run_next.1 hnext
  obtain ⟨rfl, rfl⟩ := run_pure.1 hpure
  obtain ⟨hstart, hahead⟩ := advance_clean hclean
  refine ⟨hstart, [p.current.pos], h, ?_⟩
  rw [hahead]
  simp [Parser.ahead, Lexeme.places, htoken]

theorem readsAt_get {p : Parser} {f : Parser → Parse α} {B : α → List Pos → Prop}
    (h : ReadsAt p (f p) B) : ReadsAt p (get >>= f) B := by
  intro a q hrun
  obtain ⟨_, _, hget, hrest⟩ := run_bind.1 hrun
  obtain ⟨rfl, rfl⟩ := run_get.1 hget
  exact h a q hrest

/-- A name is read from the lexeme at its place. -/
theorem reads_ident : Reads ident fun id l => l = [id.pos] := by
  intro p
  refine readsAt_get ?_
  dsimp only
  split
  next hname => exact readsAt_next (by simp [hname]) rfl
  next =>
    refine ((silent_found).skip fun _ => reads_of_report ?_) p
    exact .pure rfl

theorem silent_ident : Silent ident := (reads_ident).silent

/-! Lists, types and expressions -/

section

variable {item : Parse α} {v : α → List Pos} {Q : α → Prop}

/-- The names of a list are those of its items one after another. -/
theorem reads_commaList (h : Reads item fun x l => l = v x ∧ Q x) (fuel : Nat) :
    Reads (commaList item fuel) fun xs l => l = xs.flatMap v ∧ ∀ x ∈ xs, Q x := by
  induction fuel with
  | zero => exact .failure
  | succ fuel ih =>
      refine (silent_token).skip fun _ => ?_
      split
      · exact .pure (by simp)
      · refine h.bind fun x l => (silent_got .comma).skip fun _ => ?_
        split
        · exact .pure (by simp)
        · refine ih.bind fun xs r => .pure ?_
          rintro ⟨rfl, hxs⟩ ⟨rfl, hx⟩
          simpa using ⟨hx, hxs⟩

theorem silent_commaList (h : Silent item) (fuel : Nat) : Silent (commaList item fuel) :=
  (reads_commaList (v := fun _ => []) (Q := fun _ => True) (h.imp fun _ l hl =>
    ⟨l, ⟨hl, trivial⟩, List.Sublist.refl l⟩) fuel).silent

theorem silent_commaList1 (h : Silent item) (fuel : Nat) : Silent (commaList1 item fuel) := by
  induction fuel with
  | zero => exact .failure
  | succ fuel ih =>
      refine h.skip fun x => (silent_got .comma).skip fun _ => ?_
      split
      · exact .pure rfl
      · exact ih.skip fun _ => .pure rfl

end

theorem silent_type (fuel : Nat) : Silent (type fuel) := by
  induction fuel with
  | zero => exact .failure
  | succ fuel ih =>
      refine (silent_ident).skip fun base => (silent_token).skip fun _ => ?_
      split
      · exact .pure rfl
      · refine (silent_next).skip fun _ => (silent_commaList1 ih fuel).skip fun _ => ?_
        exact (silent_want _).skip fun _ => .pure rfl

/-- The names in expressions are not kept. -/
structure SilentExprs (fuel : Nat) : Prop where
  binary : ∀ prec, Silent (binary fuel prec)
  binaryRest : ∀ prec x, Silent (binaryRest fuel prec x)
  unary : Silent (unary fuel)
  suffixes : ∀ x, Silent (suffixes fuel x)
  operand : Silent (operand fuel)
  initializer : ∀ cls, Silent (initializer fuel cls)

namespace SilentExprs

variable {fuel : Nat}

theorem binaryRest_succ (h : SilentExprs fuel) (prec : Nat) (x : Expr) :
    Silent (Parse.binaryRest (fuel + 1) prec x) := by
  refine (silent_token).skip fun _ => ?_
  split
  · exact .pure rfl
  · split
    · exact .pure rfl
    · refine (silent_next).skip fun _ => (h.binary _).skip fun _ => h.binaryRest _ _

theorem unary_succ (h : SilentExprs fuel) : Silent (Parse.unary (fuel + 1)) := by
  refine (silent_token).skip fun _ => ?_
  split
  · exact h.operand.skip fun x => h.suffixes x
  · exact (silent_here).skip fun _ => (silent_next).skip fun _ => h.unary.skip fun _ => .pure rfl

theorem suffixes_succ (h : SilentExprs fuel) (x : Expr) :
    Silent (Parse.suffixes (fuel + 1) x) := by
  have hclose : ∀ args, Silent (want .rparen >>= fun _ => Parse.suffixes fuel (.call x args)) :=
    fun args => (silent_want _).skip fun _ => h.suffixes _
  refine (silent_token).skip fun _ => ?_
  split
  · refine (silent_want _).skip fun _ => (silent_token).skip fun _ => ?_
    split
    · exact (silent_commaList1 (h.binary 0) fuel).skip hclose
    · exact hclose []
  · exact (silent_next).skip fun _ => (silent_ident).skip fun _ => h.suffixes _
  · exact .pure rfl

theorem operand_succ (h : SilentExprs fuel) : Silent (Parse.operand (fuel + 1)) := by
  refine (silent_get).skip fun p => ?_
  dsimp only
  split
  · refine (silent_next).skip fun _ => (silent_token).skip fun _ => ?_
    split
    · exact h.initializer _
    · exact .pure rfl
  · exact (silent_next).skip fun _ => .pure rfl
  · exact (silent_next).skip fun _ => (h.binary 0).skip fun _ =>
      (silent_want _).skip fun _ => .pure rfl
  · exact (silent_found).skip fun _ => (reads_report).skip fun _ =>
      (silent_here).skip fun _ => .pure rfl

theorem initializer_succ (h : SilentExprs fuel) (cls : Ident) :
    Silent (Parse.initializer (fuel + 1) cls) := by
  refine (silent_want _).skip fun _ => (silent_want _).skip fun _ =>
    (silent_want _).skip fun _ => (silent_commaList ?_ fuel).skip fun _ =>
      (silent_want _).skip fun _ => .pure rfl
  exact (silent_ident).skip fun _ => (silent_want _).skip fun _ =>
    (h.binary 0).skip fun _ => .pure rfl

end SilentExprs

theorem silentExprs (fuel : Nat) : SilentExprs fuel := by
  induction fuel with
  | zero => exact ⟨fun _ => .failure, fun _ _ => .failure, .failure, fun _ => .failure, .failure,
      fun _ => .failure⟩
  | succ fuel ih =>
      exact
        { binary := fun prec => ih.unary.skip fun x => ih.binaryRest prec x
          binaryRest := ih.binaryRest_succ
          unary := ih.unary_succ
          suffixes := ih.suffixes_succ
          operand := ih.operand_succ
          initializer := ih.initializer_succ }

theorem silent_expr (fuel : Nat) : Silent (expr fuel) := (silentExprs fuel).binary 0

/-! Statements -/

/-- What a statement is read from: the places of its variables, in source order. -/
structure ReadsStmts (fuel : Nat) : Prop where
  stmt : Reads (stmt fuel) fun s l => l = s.binders ∧ s.Shaped
  ifElse : Reads (ifElse fuel) fun s l => l = s.binders ∧ s.Shaped ∧ s.isBranch = true
  block : Reads (block fuel) fun b l => l = b.binders ∧ b.Shaped
  stmts : Reads (stmts fuel) fun ss l => l = Stmt.allBinders ss ∧ Stmt.AllShaped ss

namespace ReadsStmts

variable {fuel : Nat}

attribute [local simp] Stmt.binders Stmt.otherBinders Block.binders Stmt.allBinders Stmt.Shaped
  Stmt.OtherShaped Block.Shaped Stmt.AllShaped

theorem bind_succ {pos : Pos} : Reads (do
    want .kwLet
    let name ← ident
    want .colon
    let type ← type fuel
    want .assign
    let value ← expr fuel
    want .semi
    return .bind pos name type value : Parse Stmt) fun s l => l = s.binders ∧ s.Shaped := by
  refine (silent_want _).skip fun _ => (reads_ident).bind fun name l => ?_
  refine (silent_want _).skip fun _ => (silent_type fuel).skip fun _ =>
    (silent_want _).skip fun _ => (silent_expr fuel).skip fun _ =>
      (silent_want _).skip fun _ => .pure ?_
  rintro rfl
  simp

theorem forLoop_succ (h : ReadsStmts fuel) {pos : Pos} : Reads (do
    want .kwFor
    let var ← ident
    want .kwIn
    let start ← here
    want .lbrack
    let low ← expr fuel
    want .comma
    let high ← expr fuel
    want .rbrack
    return .forLoop pos var ⟨start, low, high⟩ (← Parse.block fuel) : Parse Stmt)
    fun s l => l = s.binders ∧ s.Shaped := by
  refine (silent_want _).skip fun _ => (reads_ident).bind fun var l => ?_
  refine (silent_want _).skip fun _ => (silent_here).skip fun _ => (silent_want _).skip fun _ =>
    (silent_expr fuel).skip fun _ => (silent_want _).skip fun _ =>
      (silent_expr fuel).skip fun _ => (silent_want _).skip fun _ => ?_
  refine h.block.bind fun body r => .pure ?_
  rintro ⟨rfl, hbody⟩ rfl
  simp [hbody]

theorem ret_succ {pos : Pos} : Reads (do
    want .kwReturn
    let t ← token
    let result ←
      if t ≠ .semi && t ≠ .rbrace && t ≠ .eof then some <$> expr fuel else pure none
    want .semi
    return .ret pos result : Parse Stmt) fun s l => l = s.binders ∧ s.Shaped := by
  have hclose : ∀ result, Reads (want .semi >>= fun _ => pure (Stmt.ret pos result))
      fun s l => l = s.binders ∧ s.Shaped := fun result =>
    (silent_want _).skip fun _ => .pure (by simp)
  refine (silent_want _).skip fun _ => (silent_token).skip fun t => ?_
  split
  · exact (silent_expr fuel).map.skip hclose
  · exact hclose none

theorem simple_succ : Reads (do
    let x ← expr fuel
    if ← got .assign then
      let rhs ← expr fuel
      want .semi
      return .assign x rhs
    else
      want .semi
      return .expr x : Parse Stmt) fun s l => l = s.binders ∧ s.Shaped := by
  refine (silent_expr fuel).skip fun x => (silent_got _).skip fun _ => ?_
  split
  · exact (silent_expr fuel).skip fun _ => (silent_want _).skip fun _ =>
      .pure (by simp)
  · exact (silent_want _).skip fun _ => .pure (by simp)

theorem stmt_succ (h : ReadsStmts fuel) :
    Reads (Parse.stmt (fuel + 1)) fun s l => l = s.binders ∧ s.Shaped := by
  refine (silent_here).skip fun pos => (silent_token).skip fun t => ?_
  split
  · refine h.block.bind fun body r => .pure ?_
    simp
  · exact bind_succ
  · exact h.ifElse.imp fun s l hs => ⟨l, ⟨hs.1, hs.2.1⟩, List.Sublist.refl l⟩
  · refine (silent_want _).skip fun _ => (silent_expr fuel).skip fun cond => ?_
    refine h.block.bind fun body r => .pure ?_
    simp
  · exact h.forLoop_succ
  · exact ret_succ
  · exact (silent_next).skip fun _ => .pure (by simp)
  · exact simple_succ

theorem ifElse_succ (h : ReadsStmts fuel) : Reads (Parse.ifElse (fuel + 1))
    fun s l => l = s.binders ∧ s.Shaped ∧ s.isBranch = true := by
  refine (silent_here).skip fun pos => (silent_want _).skip fun _ =>
    (silent_expr fuel).skip fun cond => h.block.bind fun body l => (silent_got _).skip fun _ => ?_
  split
  · refine (silent_token).skip fun _ => ?_
    split
    · refine h.ifElse.bind fun other r => .pure ?_
      rintro ⟨rfl, hother, hbranch⟩ ⟨rfl, hbody⟩
      refine ⟨?_, ?_, rfl⟩
      · simp
      · simp [hbranch, hother, hbody]
    · refine h.block.bind fun other r => .pure ?_
      rintro ⟨rfl, hother⟩ ⟨rfl, hbody⟩
      simp [Stmt.isBranch, hother, hbody]
  · refine .pure ?_
    rintro ⟨rfl, hbody⟩
    simp [Stmt.isBranch, hbody]

theorem block_succ (h : ReadsStmts fuel) :
    Reads (Parse.block (fuel + 1)) fun b l => l = b.binders ∧ b.Shaped := by
  refine (silent_here).skip fun pos => (silent_want _).skip fun _ => h.stmts.bind fun body l => ?_
  refine (silent_here).skip fun close => (silent_want _).skip fun _ => .pure ?_
  rintro ⟨rfl, hbody⟩
  simp [hbody]

theorem stmts_succ (h : ReadsStmts fuel) : Reads (Parse.stmts (fuel + 1))
    fun ss l => l = Stmt.allBinders ss ∧ Stmt.AllShaped ss := by
  refine (silent_token).skip fun t => (silent_aborted).skip fun _ => ?_
  split
  · exact .pure (by simp)
  · refine (silent_here).skip fun start => h.stmt.bind fun s l => (silent_here).skip fun _ => ?_
    have hrest : Reads (do return s :: (← Parse.stmts fuel)) fun ss r =>
        (l = s.binders ∧ s.Shaped) → l ++ r = Stmt.allBinders ss ∧ Stmt.AllShaped ss := by
      refine h.stmts.bind fun rest r => .pure ?_
      rintro ⟨rfl, hrest⟩ ⟨rfl, hs⟩
      simp [hs, hrest]
    split
    · exact (silent_next).skip fun _ => hrest
    · exact hrest

end ReadsStmts

theorem readsStmts (fuel : Nat) : ReadsStmts fuel := by
  induction fuel with
  | zero => exact ⟨.failure, .failure, .failure, .failure⟩
  | succ fuel ih => exact ⟨ih.stmt_succ, ih.ifElse_succ, ih.block_succ, ih.stmts_succ⟩

/-! Declarations -/

theorem silent_typeParams (fuel : Nat) : Silent (typeParams fuel) := by
  refine (silent_want _).skip fun _ => (silent_commaList ?_ fuel).skip fun _ =>
    (silent_want _).skip fun _ => .pure rfl
  refine (silent_ident).skip fun name => (silent_got _).skip fun _ => ?_
  split
  · exact (silent_ident).map.skip fun _ => .pure rfl
  · exact .pure rfl

theorem reads_field (fuel : Nat) : Reads (field fuel) fun d l => l = [d.name.pos] ∧ True := by
  refine (reads_ident).bind fun name l => (silent_want _).skip fun _ =>
    (silent_type fuel).skip fun _ => .pure ?_
  rintro rfl
  simp

theorem reads_fields (fuel : Nat) :
    Reads (commaList (field fuel) fuel) fun ds l => l = ds.map (·.name.pos) :=
  (reads_commaList (reads_field fuel) fuel).imp fun ds l h =>
    ⟨l, by simpa [List.map_eq_flatMap] using h.1, List.Sublist.refl l⟩

theorem reads_receiver (fuel : Nat) (name : Ident) : Reads (receiver fuel name)
    fun r l => l = r.toList.map (·.pos) ∧ r.isSome = true := by
  refine (silent_token).skip fun _ => ?_
  split
  · exact reads_of_report (.pure rfl)
  · refine (reads_ident).bind fun recv l => (silent_token).skip fun _ => ?_
    have hclose : Reads (do
          if (← token) ≠ .rparen then
            want .comma
          return some recv)
        fun r l' => l = [recv.pos] → l ++ l' = r.toList.map (·.pos) ∧ r.isSome = true := by
      have hend : Reads (pure (some recv)) fun (r : Option Ident) l' =>
          l = [recv.pos] → l ++ l' = r.toList.map (·.pos) ∧ r.isSome = true :=
        .pure (by rintro rfl; simp)
      refine (silent_token).skip fun _ => ?_
      split
      · exact (silent_want _).skip fun _ => hend
      · exact hend
    split
    · refine reads_of_report ((silent_next).skip fun _ => ?_)
      exact (silent_type fuel).discard.skip fun _ => hclose.silent
    · exact hclose

/-- What is known of the header of a function. -/
structure HeaderRead (member : Bool) (d : FuncDecl) : Prop where
  host : d.host = false
  body : d.body = none
  recv : d.recv.isSome = member

/-- The part of a header behind its receiver. -/
theorem reads_params (fuel : Nat) (pos : Pos) (name : Ident) (tparams : List TypeParamDecl)
    (recv : Option Ident) : Reads (do
      let params ← commaList (field fuel) fuel
      want .rparen
      let result ← if ← got .colon then some <$> type fuel else pure none
      return { pos, name, recv, tparams, params, result, body := none, host := false }
        : Parse FuncDecl)
    fun d l => d.name = name ∧ d.recv = recv ∧ d.host = false ∧ d.body = none ∧
      l = d.params.map (·.name.pos) := by
  refine (reads_fields fuel).bind fun params l => (silent_want _).skip fun _ =>
    (silent_got _).skip fun _ => ?_
  split
  · exact (silent_type fuel).map.skip fun _ => .pure (by simp)
  · exact .pure (by simp)

theorem reads_signature (fuel : Nat) (member : Bool) : Reads (signature fuel member)
    fun d l => l = d.places ∧ HeaderRead member d := by
  refine (silent_here).skip fun pos => (silent_want _).skip fun _ =>
    (reads_ident).bind fun name l => (silent_token).skip fun _ => ?_
  have hfinish : ∀ d recv l' r, (d.name = name ∧ d.recv = recv ∧ d.host = false ∧
      d.body = none ∧ r = d.params.map (·.name.pos)) →
      (l' = recv.toList.map (·.pos) ∧ recv.isSome = member) → l = [name.pos] →
      l ++ (l' ++ r) = d.places ∧ HeaderRead member d := by
    rintro d recv l' r ⟨hname, hrecv, hhost, hbody, rfl⟩ ⟨rfl, hsome⟩ rfl
    refine ⟨?_, hhost, hbody, by rw [hrecv, hsome]⟩
    simp [FuncDecl.places, FuncDecl.binders, hname, hrecv, hbody]
  have hrest : ∀ tparams, Reads (do
      want .lparen
      let recv ← if member then receiver fuel name else pure none
      let params ← commaList (field fuel) fuel
      want .rparen
      let result ← if ← got .colon then some <$> type fuel else pure none
      return { pos, name, recv, tparams, params, result, body := none, host := false }
        : Parse FuncDecl) fun d r => l = [name.pos] → l ++ r = d.places ∧ HeaderRead member d := by
    intro tparams
    refine (silent_want _).skip fun _ => ?_
    split
    next hmember =>
      refine (reads_receiver fuel name).bind fun recv l' => ?_
      refine (reads_params fuel pos name tparams recv).imp fun d r hd =>
        ⟨r, fun hrecv => ?_, List.Sublist.refl r⟩
      exact hfinish d recv l' r hd ⟨hrecv.1, hrecv.2.trans hmember.symm⟩
    next hmember =>
      refine (reads_params fuel pos name tparams none).imp fun d r hd =>
        ⟨r, hfinish d none [] r hd ⟨rfl, ?_⟩, List.Sublist.refl r⟩
      simpa using hmember
  exact .ite ((silent_typeParams fuel).skip hrest) (hrest [])

theorem reads_funcDecl (fuel : Nat) (member : Bool) : Reads (funcDecl fuel member)
    fun d l => l = d.places ∧ d.Shaped ∧ d.recv.isSome = member ∧ d.host = false := by
  refine (reads_signature fuel member).bind fun d l => (readsStmts fuel).block.bind fun b r =>
    .pure ?_
  rintro ⟨rfl, hb⟩ ⟨rfl, hd⟩
  refine ⟨?_, ⟨by simpa using hb, by simp⟩, hd.recv, hd.host⟩
  simp [FuncDecl.places, FuncDecl.binders, hd.body]

theorem reads_hostDecl (fuel : Nat) : Reads (hostDecl fuel)
    fun d l => l = d.places ∧ d.Shaped ∧ d.recv.isSome = false := by
  refine (silent_here).skip fun pos => (silent_want _).skip fun _ =>
    (reads_signature fuel false).bind fun d l => (silent_got _).discard.skip fun _ => .pure ?_
  rintro ⟨rfl, hd⟩
  refine ⟨?_, ⟨by simp [hd.body], by simp⟩, hd.recv⟩
  simp [FuncDecl.places, FuncDecl.binders]

theorem reads_members {item : Parse FuncDecl} {Q : FuncDecl → Prop}
    (h : Reads item fun d l => l = d.places ∧ Q d) (fuel : Nat) :
    Reads (members item fuel) fun ds l => l = ds.flatMap FuncDecl.places ∧ ∀ d ∈ ds, Q d := by
  induction fuel with
  | zero => exact .failure
  | succ fuel ih =>
      refine (silent_aborted).skip fun _ => (silent_token).skip fun _ => ?_
      split
      · exact .pure (by simp)
      · refine h.bind fun d l => ih.bind fun ds r => .pure ?_
        rintro ⟨rfl, hds⟩ ⟨rfl, hd⟩
        simpa using ⟨hd, hds⟩

theorem reads_classDecl (fuel : Nat) : Reads (classDecl fuel)
    fun d l => l = d.places ∧ (Decl.cls d).Shaped := by
  have hrest : ∀ pos name tparams parent, Reads (do
      want .lbrace
      let fields ← commaList (field fuel) fuel
      let methods ← members (funcDecl fuel true) fuel
      want .rbrace
      return { pos, name, tparams, parent, fields, methods } : Parse ClassDecl)
      fun d l => l = d.places ∧ (Decl.cls d).Shaped := by
    intro pos name tparams parent
    refine (silent_want _).skip fun _ => (reads_fields fuel).bind fun fields l =>
      (reads_members (reads_funcDecl fuel true) fuel).bind fun methods r =>
        (silent_want _).skip fun _ => .pure ?_
    rintro ⟨rfl, hmethods⟩ rfl
    exact ⟨by simp [ClassDecl.places], hmethods⟩
  refine (silent_here).skip fun pos => (silent_want _).skip fun _ => (silent_ident).skip fun name =>
    (silent_token).skip fun _ => ?_
  have hparent : ∀ tparams, Reads (do
      let parent ← if ← got .colon then some <$> ident else pure none
      want .lbrace
      let fields ← commaList (field fuel) fuel
      let methods ← members (funcDecl fuel true) fuel
      want .rbrace
      return { pos, name, tparams, parent, fields, methods } : Parse ClassDecl)
      fun d l => l = d.places ∧ (Decl.cls d).Shaped := by
    intro tparams
    refine (silent_got _).skip fun _ => ?_
    split
    · exact (silent_ident).map.skip fun parent => hrest pos name tparams parent
    · exact hrest pos name tparams none
  exact .ite ((silent_typeParams fuel).skip hparent) (hparent [])

theorem reads_boundDecl (fuel : Nat) : Reads (boundDecl fuel)
    fun d l => l = d.methods.flatMap FuncDecl.places := by
  have hmethod : Reads (do
      let d ← signature fuel true
      want .semi
      return d) fun d l => l = d.places ∧ True := by
    refine (reads_signature fuel true).bind fun d l => (silent_want _).skip fun _ => .pure ?_
    rintro ⟨rfl, _⟩
    simp
  refine (silent_here).skip fun pos => (silent_want _).skip fun _ => (silent_ident).skip fun name =>
    (silent_want _).skip fun _ => (reads_members hmethod fuel).bind fun methods l =>
      (silent_want _).skip fun _ => .pure ?_
  rintro ⟨rfl, _⟩
  simp

theorem silent_constDecl (fuel : Nat) : Silent (constDecl fuel) :=
  (silent_here).skip fun _ => (silent_want _).skip fun _ => (silent_ident).skip fun _ =>
    (silent_want _).skip fun _ => (silent_type fuel).skip fun _ => (silent_want _).skip fun _ =>
      (silent_expr fuel).skip fun _ => (silent_want _).skip fun _ => .pure rfl

theorem reads_decl (fuel : Nat) : Reads (decl fuel)
    fun d l => l = d.toList.flatMap Decl.places ∧ ∀ x ∈ d, x.Shaped := by
  refine (silent_token).skip fun _ => ?_
  split
  · refine (reads_classDecl fuel).bind fun d l => .pure ?_
    rintro ⟨rfl, hd⟩
    simpa [Decl.places] using hd
  · refine (reads_boundDecl fuel).bind fun d l => .pure ?_
    rintro rfl
    simp [Decl.places, Decl.Shaped]
  · refine (reads_funcDecl fuel false).bind fun d l => .pure ?_
    rintro ⟨rfl, hd, hrecv, _⟩
    exact ⟨by simp [Decl.places], by simpa [Decl.Shaped] using ⟨hd, by simpa using hrecv⟩⟩
  · refine (reads_hostDecl fuel).bind fun d l => .pure ?_
    rintro ⟨rfl, hd, hrecv⟩
    exact ⟨by simp [Decl.places], by simpa [Decl.Shaped] using ⟨hd, by simpa using hrecv⟩⟩
  · refine (silent_constDecl fuel).skip fun d => .pure ?_
    simp [Decl.places, Decl.Shaped]
  · exact (silent_found).skip fun _ => reads_of_report ((silent_recover).skip fun _ => .pure rfl)

theorem reads_decls (fuel : Nat) : Reads (decls fuel)
    fun ds l => l = ds.flatMap Decl.places ∧ ∀ d ∈ ds, d.Shaped := by
  induction fuel with
  | zero => exact .failure
  | succ fuel ih =>
      refine (silent_aborted).skip fun _ => (silent_token).skip fun _ => ?_
      split
      · exact .pure (by simp)
      · refine (silent_here).skip fun _ => (reads_decl fuel).bind fun d l => ?_
        have hrest : Reads (do return d.toList ++ (← decls fuel)) fun ds r =>
            (l = d.toList.flatMap Decl.places ∧ ∀ x ∈ d, x.Shaped) →
              l ++ r = ds.flatMap Decl.places ∧ ∀ x ∈ ds, x.Shaped := by
          refine ih.bind fun rest r => .pure ?_
          rintro ⟨rfl, hrest⟩ ⟨rfl, hd⟩
          refine ⟨by simp, fun x hx => ?_⟩
          rcases List.mem_append.1 hx with hx | hx
          · exact hd x (by simpa using hx)
          · exact hrest x hx
        refine (silent_here).skip fun _ => (silent_token).skip fun _ => ?_
        split
        · exact (silent_next).skip fun _ => hrest
        · exact hrest

theorem ahead_start {ls : List Lexeme} (h : (start ls).Clean) :
    (start ls).ahead = Lexeme.places ls := (advance_clean h).2

end Parse

/-- What is known of the tree of a text without a report: the places where it declares
functions, fields and variables are all different, and there are no more of them than
bytes. -/
theorem parseFile_clean {name : String} {bytes : List UInt8}
    (h : (parseFile name bytes).reports = []) :
    (parseFile name bytes).file.places.Nodup ∧
      (parseFile name bytes).file.places.length ≤ bytes.length ∧
      ∀ d ∈ (parseFile name bytes).file.decls, d.Shaped := by
  obtain ⟨ds, q, hparse, hruns⟩ := exists_parseFile_run name bytes
  have hrun := hruns _ (Nat.le_refl _)
  rw [hparse] at h ⊢
  obtain ⟨faults, hreported⟩ := Parse.reported_decls hrun
  obtain ⟨hstart, l, ⟨rfl, hshaped⟩, hsub⟩ :=
    Parse.reads_decls _ _ ds q hrun (hreported.clean h)
  have hplaces := (List.sublist_append_left _ _).trans hsub
  rw [Parse.ahead_start hstart] at hplaces
  obtain ⟨hnodup, hlength⟩ := places_lexemes name bytes
  exact ⟨hnodup.sublist hplaces, Nat.le_trans hplaces.length_le hlength, hshaped⟩

end ClassLang

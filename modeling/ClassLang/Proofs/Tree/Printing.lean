import ClassLang.Proofs.Token.Rendering
import ClassLang.Proofs.Tree.Exact
import ClassLang.Proofs.Tree.Inside
import ClassLang.Proofs.Tree.Names

/-!
Expressions in source form. The tokens of the source form of an expression are the terminals of
the expression, since none of them can be mistaken where it stands.
-/

namespace ClassLang

open Grammar (Terminal Items Items1 Derivation)

/-! Strings that are quoted as they are written -/

/-- A visible character of ASCII, a blank, or one of the three that have an escape. -/
def Scan.IsPlain (c : Char) : Prop :=
  (' ' ≤ c ∧ c ≤ '~') ∨ c = '\n' ∨ c = '\t' ∨ c = '\r'

theorem Text.escapeChar_plain {c : Char} (h : Scan.IsPlain c) :
    Text.escapeChar '"' c = CommandLine.literalChar c := by
  have hvisible : ∀ n < 127, 32 ≤ n →
      Text.escapeChar '"' (Char.ofNat n) = CommandLine.literalChar (Char.ofNat n) := by
    decide +kernel
  rcases h with ⟨hlow, hhigh⟩ | rfl | rfl | rfl
  · have hn := hvisible c.toNat (Nat.lt_succ_of_le hhigh) hlow
    rwa [Char.ofNat_toNat] at hn
  all_goals decide +kernel

theorem Text.quote_plain {s : String} (h : ∀ c ∈ s.toList, Scan.IsPlain c) :
    Text.quote s = CommandLine.literalText s := by
  have hchars : s.toList.map (Text.escapeChar '"') = s.toList.map CommandLine.literalChar :=
    List.map_congr_left fun c hc => Text.escapeChar_plain (h c hc)
  rw [Text.quote, CommandLine.literalText, hchars]

/-! The terminals of an expression -/

namespace Expr

mutual

/-- The terminals of the source form of an expression. -/
def word : Expr → List Terminal
  | .name id => [.name id.text]
  | .literal _ kind text => [.literal kind text]
  | .unary _ op x => .mark op.token :: x.word
  | .binary op x y => x.word ++ .mark op.token :: y.word
  | .call fn args => fn.word ++ .mark .lparen :: (wordOf args ++ [.mark .rparen])
  | .select x sel => x.word ++ [.mark .dot, .name sel.text]
  | .init cls elems => .name cls.text :: .mark .colon :: .mark .kwInit :: .mark .lparen ::
      (elemWords elems ++ [.mark .rparen])
  | .paren _ x => .mark .lparen :: (x.word ++ [.mark .rparen])

/-- The terminals of the source forms of a list of expressions, with commas between them. -/
def wordOf : List Expr → List Terminal
  | [] => []
  | [x] => x.word
  | x :: y :: rest => x.word ++ .mark .comma :: wordOf (y :: rest)

/-- The terminals of the source forms of the elements of an initializer. -/
def elemWords : List (Ident × Expr) → List Terminal
  | [] => []
  | [(key, x)] => .name key.text :: .mark .colon :: x.word
  | (key, x) :: e :: rest =>
    .name key.text :: .mark .colon :: (x.word ++ .mark .comma :: elemWords (e :: rest))

end

end Expr

mutual

/-- Positions play no part in the source form. -/
theorem Expr.word_bare : (x : Expr) → x.bare.word = x.word
  | .name id => rfl
  | .literal _ kind text => rfl
  | .unary _ op x => by rw [Expr.bare, Expr.word, Expr.word, x.word_bare]
  | .binary op x y => by rw [Expr.bare, Expr.word, Expr.word, x.word_bare, y.word_bare]
  | .call fn args => by
    rw [Expr.bare, Expr.word, Expr.word, fn.word_bare, Expr.wordOf_bareAll args]
  | .select x sel => by
    rw [Expr.bare, Expr.word, Expr.word, x.word_bare, Ident.bare]
  | .init cls elems => by
    rw [Expr.bare, Expr.word, Expr.word, Expr.elemWords_bareElems elems, Ident.bare]
  | .paren _ x => by rw [Expr.bare, Expr.word, Expr.word, x.word_bare]

@[inherit_doc Expr.word_bare]
theorem Expr.wordOf_bareAll : (xs : List Expr) →
    Expr.wordOf (Expr.bareAll xs) = Expr.wordOf xs
  | [] => rfl
  | [x] => x.word_bare
  | x :: y :: rest => by
    have hrest := Expr.wordOf_bareAll (y :: rest)
    rw [Expr.bareAll] at hrest
    rw [Expr.bareAll, Expr.bareAll, Expr.wordOf, Expr.wordOf, x.word_bare, hrest]

@[inherit_doc Expr.word_bare]
theorem Expr.elemWords_bareElems : (es : List (Ident × Expr)) →
    Expr.elemWords (Expr.bareElems es) = Expr.elemWords es
  | [] => rfl
  | [(key, x)] => by
    rw [Expr.bareElems, Expr.bareElems, Expr.elemWords, Expr.elemWords, x.word_bare, Ident.bare]
  | (key, x) :: (key', y) :: rest => by
    have hrest := Expr.elemWords_bareElems ((key', y) :: rest)
    rw [Expr.bareElems] at hrest
    rw [Expr.bareElems, Expr.bareElems, Expr.elemWords, Expr.elemWords, x.word_bare, hrest,
      Ident.bare]

end

/-- What a terminal says. -/
def Grammar.Terminal.content : Terminal → Token × LitKind × String
  | .name text => (.name, .int, text)
  | .literal kind text => (.literal, kind, text)
  | .mark t => (t, .int, t.text)

/-- Whether a terminal can be written so that it is read again: a name is a word of its own, a
number is spelled as numbers are, and a string has plain characters only. -/
def Grammar.Terminal.Written : Terminal → Prop
  | .name text => Scan.IsName text ∧ Token.ofWord text = .name
  | .literal .string text => ∀ c ∈ text.toList, Scan.IsPlain c
  | .literal kind text => Scan.IsNumber kind text.toList
  | .mark t => t.isMark = true

namespace Scan

/-! Single terminals -/

theorem endsWord_cons {c : Char} {cs : List Char}
    (h : (isLetter c || isDigit c || c = '.') = false) : EndsWord (c :: cs) := by
  simp only [Bool.or_eq_false_iff, decide_eq_false_iff_not] at h
  refine ⟨stops_cons.2 (by simp [h.1]), ?_⟩
  rintro d more heq
  exact absurd (List.cons.inj heq).1 h.2

theorem IsName.exists_cons {s : String} (h : IsName s) :
    ∃ c cs, s.toList = c :: cs ∧ isLetter c = true := by
  cases hchars : s.toList with
  | nil => exact absurd hchars h.ne_nil
  | cons c cs => exact ⟨c, cs, rfl, by simpa [hchars] using h.1⟩

/-- No sign goes on with a letter or digit. -/
theorem not_sign_of_word {c : Char} (h : (isLetter c || isDigit c) = true) :
    (c = '=' || c = '&' || c = '|' || c = '/') = false := by
  refine Bool.eq_false_iff.2 fun hsign => ?_
  simp only [Bool.or_eq_true, decide_eq_true_eq] at hsign
  rcases hsign with ((rfl | rfl) | rfl) | rfl <;> cases h

theorem isDigit_of_letter {c : Char} (h : isLetter c = true) : isDigit c = false := by
  refine Bool.eq_false_iff.2 fun hdigit => ?_
  rw [isLetter_of_isDigit hdigit] at h
  cases h

theorem isName_keyword {t : Token} (h : t.isKeyword = true) : IsName t.text := by
  cases t <;> first | exact isName_ofList (by decide) | cases h

theorem ofWord_keyword {t : Token} (h : t.isKeyword = true) : Token.ofWord t.text = t := by
  revert h
  cases t <;> decide +kernel

variable {rest : List Char}

theorem scans_name {s : String} (h : (Terminal.name s).Written) (hrest : EndsWord rest) :
    Scans s.toList [(Terminal.name s).content] rest := by
  have hread := readsAs_word h.1 hrest.stops
  rw [h.2] at hread
  exact .token h.1.ne_nil hread

theorem scans_sign {t : Token} (h : t.isSign = true) (hrest : EndsSign rest) :
    Scans t.text.toList [(Terminal.mark t).content] rest := by
  refine .token ?_ (readsAs_sign h hrest)
  rcases text_sign h with ⟨c, htext, _⟩ | ⟨c, d, htext, _⟩ <;> simp [htext]

/-- A keyword. -/
theorem scans_keyword {t : Token} (h : t.isKeyword = true) (hrest : EndsWord rest) :
    Scans t.text.toList [(Terminal.mark t).content] rest := by
  have hread := readsAs_word (isName_keyword h) hrest.stops
  rw [ofWord_keyword h] at hread
  exact .token (isName_keyword h).ne_nil hread

theorem scans_literal {pos : Pos} {k : LitKind} {s : String}
    (h : (Terminal.literal k s).Written) (hrest : EndsWord rest) :
    Scans (Expr.literal pos k s).text.toList [(Terminal.literal k s).content] rest := by
  cases k with
  | string =>
      rw [Expr.text, Text.quote_plain h]
      exact .token (by simp [CommandLine.literalText]) (readsAs_string s)
  | int =>
      have hread := readsAs_number h hrest
      rw [String.ofList_toList] at hread
      exact .token (IsNumber.ne_nil h) hread
  | float =>
      have hread := readsAs_number h hrest
      rw [String.ofList_toList] at hread
      exact .token (IsNumber.ne_nil h) hread

namespace Scans

variable {ds : List Char} {ys : List (Token × LitKind × String)}

/-- A blank in front of what is read. -/
theorem cons_blank (h : Scans ds ys rest) : Scans (' ' :: ds) ys rest :=
  .append (.blank rfl) h

/-- The end of a line in front of what is read. -/
theorem cons_line (h : Scans ds ys rest) : Scans ('\n' :: ds) ys rest :=
  .append (.blank rfl) h

/-- A sign of one character in front of what is read. -/
theorem cons_sign {t : Token} {c : Char} (ht : t.isSign = true) (hc : t.text.toList = [c])
    (hend : EndsSign (ds ++ rest)) (h : Scans ds ys rest) :
    Scans (c :: ds) ((Terminal.mark t).content :: ys) rest := by
  have hsign := scans_sign ht hend
  rw [hc] at hsign
  exact .append hsign h

/-- A name in front of what is read. -/
theorem append_name {s : String} (hs : (Terminal.name s).Written) (hend : EndsWord (ds ++ rest))
    (h : Scans ds ys rest) : Scans (s.toList ++ ds) ((Terminal.name s).content :: ys) rest :=
  .append (scans_name hs hend) h

end Scans

/-! Expressions -/

theorem IsNumber.exists_cons {k : LitKind} {cs : List Char} (h : IsNumber k cs) :
    ∃ c ds, cs = c :: ds ∧ isDigit c = true := by
  cases h with
  | decimal h _ _ => exact ⟨_, _, rfl, h _ List.mem_cons_self⟩
  | hex _ _ => exact ⟨_, _, rfl, rfl⟩

theorem endsSign_nil : EndsSign [] := stops_nil

theorem endsSign_cons {c : Char} {cs : List Char}
    (h : (c = '=' || c = '&' || c = '|' || c = '/') = false) : EndsSign (c :: cs) :=
  stops_cons.2 h

theorem endsSign_name {s : String} (h : (Terminal.name s).Written) (ds : List Char) :
    EndsSign (s.toList ++ ds) := by
  obtain ⟨c, cs, hchars, hc⟩ := h.1.exists_cons
  rw [hchars]
  exact stops_cons.2 (not_sign_of_word (by simp [hc]))

theorem endsSign_number {k : LitKind} {cs : List Char} (h : IsNumber k cs) (ds : List Char) :
    EndsSign (cs ++ ds) := by
  obtain ⟨c, cs, rfl, hc⟩ := h.exists_cons
  exact stops_cons.2 (not_sign_of_word (by simp [hc]))

/-- The source form of an expression starts with nothing that could end a sign. -/
theorem endsSign_expr : (x : Expr) → (∀ t ∈ x.word, t.Written) → ∀ ds,
    EndsSign (x.text.toList ++ ds)
  | .name id, h, ds => endsSign_name (h (.name id.text) (by simp [Expr.word])) ds
  | .literal pos k s, h, ds => by
    have hs : (Terminal.literal k s).Written := h _ (by simp [Expr.word])
    cases k with
    | string =>
        rw [Expr.text, Text.quote_plain hs]
        simpa [CommandLine.literalText] using endsSign_cons rfl
    | int => exact endsSign_number hs ds
    | float => exact endsSign_number hs ds
  | .unary _ op x, _, ds => by
    cases op with
    | not => simpa [Expr.text, UnaryOp.token, Token.text] using endsSign_cons rfl
    | neg => simpa [Expr.text, UnaryOp.token, Token.text] using endsSign_cons rfl
  | .binary op x y, h, ds => by
    simpa [Expr.text] using endsSign_expr x (fun t ht => h t (by simp [Expr.word, ht])) _
  | .call fn args, h, ds => by
    simpa [Expr.text] using endsSign_expr fn (fun t ht => h t (by simp [Expr.word, ht])) _
  | .select x sel, h, ds => by
    simpa [Expr.text] using endsSign_expr x (fun t ht => h t (by simp [Expr.word, ht])) _
  | .init cls elems, h, ds => by
    simpa [Expr.text] using endsSign_name (h (.name cls.text) (by simp [Expr.word])) _
  | .paren _ x, _, ds => by simpa [Expr.text] using endsSign_cons rfl

theorem endsSign_exprs (xs : List Expr) (h : ∀ t ∈ Expr.wordOf xs, t.Written) :
    EndsSign ((", ".intercalate (Expr.texts xs)).toList ++ ')' :: rest) := by
  match xs with
  | [] => exact endsSign_cons rfl
  | [x] => simpa [Expr.texts] using endsSign_expr x (fun t ht => h t (by simp [Expr.wordOf, ht])) _
  | x :: y :: more =>
      simpa [Expr.texts] using endsSign_expr x (fun t ht => h t (by simp [Expr.wordOf, ht])) _

theorem endsSign_elems (es : List (Ident × Expr)) (h : ∀ t ∈ Expr.elemWords es, t.Written) :
    EndsSign ((", ".intercalate (Expr.elemTexts es)).toList ++ ')' :: rest) := by
  match es with
  | [] => exact endsSign_cons rfl
  | [(key, x)] =>
      simpa [Expr.elemTexts] using endsSign_name (h (.name key.text) (by simp [Expr.elemWords])) _
  | (key, x) :: e :: more =>
      simpa [Expr.elemTexts] using endsSign_name (h (.name key.text) (by simp [Expr.elemWords])) _

/-- What may stand behind an expression in source form. -/
structure EndsExpr (rest : List Char) : Prop where
  word : EndsWord rest
  sign : EndsSign rest

theorem endsExpr_cons {c : Char} {cs : List Char}
    (h : (isLetter c || isDigit c || c = '.' || c = '=' || c = '&' || c = '|' || c = '/') = false) :
    EndsExpr (c :: cs) := by
  simp only [Bool.or_eq_false_iff] at h
  exact ⟨endsWord_cons (by simp [h]), endsSign_cons (by simp [h])⟩

/-- A point in front of a name does not start a fraction. -/
theorem endsExpr_select {s : String} (h : (Terminal.name s).Written) (ds : List Char) :
    EndsExpr ('.' :: (s.toList ++ ds)) := by
  obtain ⟨c, cs, hchars, hc⟩ := h.1.exists_cons
  rw [hchars]
  refine ⟨⟨stops_cons.2 rfl, ?_⟩, endsSign_cons rfl⟩
  rintro d more heq
  obtain rfl : c = d := (List.cons.inj (List.cons.inj heq).2).1
  exact isDigit_of_letter hc

/-- A list in parentheses. -/
theorem Scans.parens {ds : List Char} {ys : List (Token × LitKind × String)}
    (h : Scans ds ys (')' :: rest)) (hstart : EndsSign (ds ++ ')' :: rest))
    (hrest : EndsSign rest) :
    Scans ('(' :: (ds ++ [')']))
      ((Terminal.mark .lparen).content :: (ys ++ [(Terminal.mark .rparen).content])) rest := by
  have hclose : Scans [')'] [(Terminal.mark .rparen).content] rest :=
    Scans.nil.cons_sign (t := .rparen) rfl rfl hrest
  refine (h.append hclose).cons_sign (t := .lparen) rfl rfl ?_
  rwa [List.append_assoc]

/-- A key in front of the source form of its value. -/
theorem Scans.key {s : String} {ds : List Char} {ys : List (Token × LitKind × String)}
    (hs : (Terminal.name s).Written) (h : Scans ds ys rest) :
    Scans (s.toList ++ ':' :: ' ' :: ds)
      ((Terminal.name s).content :: (Terminal.mark .colon).content :: ys) rest :=
  (h.cons_blank.cons_sign (t := .colon) (c := ':') rfl rfl (endsSign_cons rfl)).append_name hs
    (endsWord_cons rfl)

/-- The head of an initializer. -/
theorem scans_init {s : String} {ds : List Char} {ys : List (Token × LitKind × String)}
    (hs : (Terminal.name s).Written)
    (h : Scans ('(' :: ds) ((Terminal.mark .lparen).content :: ys) rest) :
    Scans (s.toList ++ ":init".toList ++ '(' :: ds)
      ((Terminal.name s).content :: (Terminal.mark .colon).content ::
        (Terminal.mark .kwInit).content :: (Terminal.mark .lparen).content :: ys) rest := by
  have hinit : Scans "init".toList [(Terminal.mark .kwInit).content] ('(' :: ds ++ rest) :=
    scans_keyword (t := .kwInit) rfl (endsWord_cons (c := '(') rfl)
  have hcolon := (hinit.append h).cons_sign (t := .colon) (c := ':') rfl rfl (endsSign_cons rfl)
  simpa using hcolon.append_name hs (endsWord_cons rfl)

mutual

/-- The source form of an expression is read as the terminals of the expression. -/
theorem scans_expr : (x : Expr) → (∀ t ∈ x.word, t.Written) → ∀ rest, EndsExpr rest →
    Scans x.text.toList (x.word.map Terminal.content) rest
  | .name id, h, rest, hrest => scans_name (s := id.text) (h _ (by simp [Expr.word])) hrest.word
  | .literal pos k s, h, rest, hrest => scans_literal (h _ (by simp [Expr.word])) hrest.word
  | .unary pos op x, h, rest, hrest => by
    have hx : ∀ t ∈ x.word, t.Written := fun t ht => h t (by simp [Expr.word, ht])
    have hsign : op.token.isSign = true := by cases op <;> rfl
    have hread := (scans_sign hsign (endsSign_expr x hx rest)).append (scans_expr x hx rest hrest)
    simpa [Expr.text, Expr.word] using hread
  | .binary op x y, h, rest, hrest => by
    have hx : ∀ t ∈ x.word, t.Written := fun t ht => h t (by simp [Expr.word, ht])
    have hy : ∀ t ∈ y.word, t.Written := fun t ht => h t (by simp [Expr.word, ht])
    have hsign : op.token.isSign = true := by cases op <;> rfl
    have hright := (scans_sign hsign (endsSign_cons rfl)).append
      (scans_expr y hy rest hrest).cons_blank
    have hread := (scans_expr x hx _ (endsExpr_cons rfl)).append hright.cons_blank
    simpa [Expr.text, Expr.word] using hread
  | .call fn args, h, rest, hrest => by
    have hfn : ∀ t ∈ fn.word, t.Written := fun t ht => h t (by simp [Expr.word, ht])
    have hargs : ∀ t ∈ Expr.wordOf args, t.Written := fun t ht => h t (by simp [Expr.word, ht])
    have hparens := (scans_exprs args hargs _ (endsExpr_cons rfl)).parens
      (endsSign_exprs args hargs) hrest.sign
    have hread := (scans_expr fn hfn _ (endsExpr_cons rfl)).append hparens
    simpa [Expr.text, Expr.word] using hread
  | .select x sel, h, rest, hrest => by
    have hx : ∀ t ∈ x.word, t.Written := fun t ht => h t (by simp [Expr.word, ht])
    have hsel : (Terminal.name sel.text).Written := h _ (by simp [Expr.word])
    have hname : Scans ('.' :: sel.text.toList) _ rest :=
      (scans_name hsel hrest.word).cons_sign (t := .dot) rfl rfl (endsSign_name hsel rest)
    have hread := (scans_expr x hx _ (endsExpr_select hsel rest)).append hname
    simpa [Expr.text, Expr.word] using hread
  | .init cls elems, h, rest, hrest => by
    have hcls : (Terminal.name cls.text).Written := h _ (by simp [Expr.word])
    have helems : ∀ t ∈ Expr.elemWords elems, t.Written :=
      fun t ht => h t (by simp [Expr.word, ht])
    have hparens := (scans_elems elems helems _ (endsExpr_cons rfl)).parens
      (endsSign_elems elems helems) hrest.sign
    simpa [Expr.text, Expr.word] using scans_init hcls hparens
  | .paren pos x, h, rest, hrest => by
    have hx : ∀ t ∈ x.word, t.Written := fun t ht => h t (by simp [Expr.word, ht])
    have hread := (scans_expr x hx _ (endsExpr_cons rfl)).parens (endsSign_expr x hx _) hrest.sign
    simpa [Expr.text, Expr.word] using hread

/-- The source forms of expressions, with commas between them. -/
theorem scans_exprs : (xs : List Expr) → (∀ t ∈ Expr.wordOf xs, t.Written) → ∀ rest,
    EndsExpr rest →
    Scans (", ".intercalate (Expr.texts xs)).toList ((Expr.wordOf xs).map Terminal.content) rest
  | [], _, rest, _ => .nil
  | [x], h, rest, hrest => by
    simpa [Expr.texts, Expr.wordOf] using scans_expr x h rest hrest
  | x :: y :: more, h, rest, hrest => by
    have hx : ∀ t ∈ x.word, t.Written := fun t ht => h t (by simp [Expr.wordOf, ht])
    have hmore : ∀ t ∈ Expr.wordOf (y :: more), t.Written :=
      fun t ht => h t (by rw [Expr.wordOf]; simp [ht])
    have hcomma := (scans_exprs (y :: more) hmore rest hrest).cons_blank.cons_sign
      (t := .comma) (c := ',') rfl rfl (endsSign_cons rfl)
    have hread := (scans_expr x hx _ (endsExpr_cons rfl)).append hcomma
    simpa [Expr.texts, Expr.wordOf] using hread

/-- The elements of an initializer, with commas between them. -/
theorem scans_elems : (es : List (Ident × Expr)) → (∀ t ∈ Expr.elemWords es, t.Written) →
    ∀ rest, EndsExpr rest → Scans (", ".intercalate (Expr.elemTexts es)).toList
      ((Expr.elemWords es).map Terminal.content) rest
  | [], _, rest, _ => .nil
  | [(key, x)], h, rest, hrest => by
    have hkey : (Terminal.name key.text).Written := h _ (by simp [Expr.elemWords])
    have hx : ∀ t ∈ x.word, t.Written := fun t ht => h t (by simp [Expr.elemWords, ht])
    have hread := (scans_expr x hx rest hrest).key hkey
    simpa [Expr.elemTexts, Expr.elemWords] using hread
  | (key, x) :: e :: more, h, rest, hrest => by
    have hkey : (Terminal.name key.text).Written := h _ (by simp [Expr.elemWords])
    have hx : ∀ t ∈ x.word, t.Written := fun t ht => h t (by simp [Expr.elemWords, ht])
    have hmore : ∀ t ∈ Expr.elemWords (e :: more), t.Written :=
      fun t ht => h t (by rw [Expr.elemWords]; simp [ht])
    have hcomma := (scans_elems (e :: more) hmore rest hrest).cons_blank.cons_sign
      (t := .comma) (c := ',') rfl rfl (endsSign_cons rfl)
    have hread := ((scans_expr x hx _ (endsExpr_cons rfl)).append hcomma).key hkey
    simpa [Expr.elemTexts, Expr.elemWords] using hread

end

end Scan

/-! Derivations of the source form -/

theorem Expr.wordOf_cons {x : Expr} {xs : List Expr} (h : xs ≠ []) :
    Expr.wordOf (x :: xs) = x.word ++ .mark .comma :: Expr.wordOf xs := by
  cases xs with
  | nil => exact absurd rfl h
  | cons y rest => rw [Expr.wordOf]

theorem Expr.elemWords_cons {e : Ident × Expr} {es : List (Ident × Expr)} (h : es ≠ []) :
    Expr.elemWords (e :: es) =
      Expr.elemWords [e] ++ .mark .comma :: Expr.elemWords es := by
  obtain ⟨_, x⟩ := e
  cases es with
  | nil => exact absurd rfl h
  | cons e rest => simp [Expr.elemWords]

namespace Grammar

theorem Binary.treeAll_ne_nil (xs : Items1 (Binary 6)) : Binary.treeAll xs ≠ [] := by
  cases xs <;> simp [Binary.treeAll]

mutual

/-- The terminals of the tree of a derivation are those of the derivation, without the commas
that no part follows. -/
theorem Binary.word_sublist : {n : Nat} → (d : Binary n) → d.tree.word.Sublist d.yield
  | _, .unary x => x.word_sublist
  | _, .lift x => x.word_sublist
  | _, .op o _ x y => by
    rw [Binary.tree, Expr.word, Binary.yield]
    exact x.word_sublist.append (y.word_sublist.cons_cons _)
termination_by structural _ d => d

@[inherit_doc Binary.word_sublist]
theorem Unary.word_sublist : (d : Unary) → d.tree.word.Sublist d.yield
  | .primary x => x.word_sublist
  | .op o x => by
    rw [Unary.tree, Expr.word, Unary.yield]
    exact x.word_sublist.cons_cons _
termination_by structural d => d

@[inherit_doc Binary.word_sublist]
theorem Primary.word_sublist : (d : Primary) → d.tree.word.Sublist d.yield
  | .operand x => x.word_sublist
  | .call fn => by
    rw [Primary.tree, Expr.word, Expr.wordOf, Primary.yield]
    exact fn.word_sublist.append (.refl _)
  | .callWith fn args => by
    rw [Primary.tree, Expr.word, Primary.yield]
    exact fn.word_sublist.append (((Binary.wordOf_sublist args).append (.refl _)).cons_cons _)
  | .select x sel => by
    rw [Primary.tree, Expr.word, Primary.yield]
    exact x.word_sublist.append (.refl _)
termination_by structural d => d

@[inherit_doc Binary.word_sublist]
theorem Operand.word_sublist : (d : Operand) → d.tree.word.Sublist d.yield
  | .name text => .refl _
  | .literal kind text => .refl _
  | .paren x => by
    rw [Operand.tree, Expr.word, Operand.yield]
    exact (x.word_sublist.append (.refl _)).cons_cons _
  | .init cls elems => by
    rw [Operand.tree, Expr.word, Operand.yield]
    have helems := (Elem.elemWords_sublist elems).append (.refl [.mark .rparen])
    exact (((helems.cons_cons _).cons_cons _).cons_cons _).cons_cons _
termination_by structural d => d

@[inherit_doc Binary.word_sublist]
theorem Elem.word_sublist : (d : Elem) → (Expr.elemWords [d.tree]).Sublist d.yield
  | .mk _ value => (value.word_sublist.cons_cons _).cons_cons _
termination_by structural d => d

@[inherit_doc Binary.word_sublist]
theorem Binary.wordOf_sublist : (xs : Items1 (Binary 6)) →
    (Expr.wordOf (Binary.treeAll xs)).Sublist (Binary.yieldAll xs)
  | .last x => by
    rw [Binary.treeAll, Expr.wordOf, Binary.yieldAll]
    exact x.word_sublist
  | .more x rest => by
    rw [Binary.treeAll, Expr.wordOf_cons (Binary.treeAll_ne_nil rest), Binary.yieldAll]
    exact x.word_sublist.append ((Binary.wordOf_sublist rest).cons_cons _)
termination_by structural xs => xs

@[inherit_doc Binary.word_sublist]
theorem Elem.elemWords_sublist : (es : Items Elem) →
    (Expr.elemWords (Elem.treeAll es)).Sublist (Elem.yieldAll es)
  | .none => .refl _
  | .last x => by
    rw [Elem.treeAll, Elem.yieldAll]
    exact x.word_sublist
  | .more x rest => by
    rw [Elem.treeAll, Elem.yieldAll]
    by_cases hrest : Elem.treeAll rest = []
    · rw [hrest]
      exact x.word_sublist.trans (List.sublist_append_left _ _)
    · rw [Expr.elemWords_cons hrest]
      exact x.word_sublist.append ((Elem.elemWords_sublist rest).cons_cons _)
termination_by structural es => es

end

mutual

/-- The tree of a derivation has a derivation that yields the terminals of the tree. -/
theorem Binary.exists_word : {n : Nat} → (d : Binary n) →
    ∃ d' : Binary n, d'.tree = d.tree ∧ d'.yield = d.tree.word
  | _, .unary x =>
    let ⟨x', htree, hyield⟩ := x.exists_word
    ⟨.unary x', htree, hyield⟩
  | _, .lift x =>
    let ⟨x', htree, hyield⟩ := x.exists_word
    ⟨.lift x', htree, hyield⟩
  | _, .op o h x y => by
    obtain ⟨x', hx, hx'⟩ := x.exists_word
    obtain ⟨y', hy, hy'⟩ := y.exists_word
    exact ⟨.op o h x' y', by simp [Binary.tree, hx, hy],
      by simp [Binary.yield, Binary.tree, Expr.word, hx', hy']⟩
termination_by structural _ d => d

@[inherit_doc Binary.exists_word]
theorem Unary.exists_word : (d : Unary) →
    ∃ d' : Unary, d'.tree = d.tree ∧ d'.yield = d.tree.word
  | .primary x =>
    let ⟨x', htree, hyield⟩ := x.exists_word
    ⟨.primary x', htree, hyield⟩
  | .op o x => by
    obtain ⟨x', hx, hx'⟩ := x.exists_word
    exact ⟨.op o x', by simp [Unary.tree, hx], by simp [Unary.yield, Unary.tree, Expr.word, hx']⟩
termination_by structural d => d

@[inherit_doc Binary.exists_word]
theorem Primary.exists_word : (d : Primary) →
    ∃ d' : Primary, d'.tree = d.tree ∧ d'.yield = d.tree.word
  | .operand x =>
    let ⟨x', htree, hyield⟩ := x.exists_word
    ⟨.operand x', htree, hyield⟩
  | .call fn => by
    obtain ⟨fn', hfn, hfn'⟩ := fn.exists_word
    exact ⟨.call fn', by simp [Primary.tree, hfn],
      by simp [Primary.yield, Primary.tree, Expr.word, Expr.wordOf, hfn']⟩
  | .callWith fn args => by
    obtain ⟨fn', hfn, hfn'⟩ := fn.exists_word
    obtain ⟨args', hargs, hargs'⟩ := Binary.exists_wordOf args
    exact ⟨.callWith fn' args', by simp [Primary.tree, hfn, hargs],
      by simp [Primary.yield, Primary.tree, Expr.word, hfn', hargs']⟩
  | .select x sel => by
    obtain ⟨x', hx, hx'⟩ := x.exists_word
    exact ⟨.select x' sel, by simp [Primary.tree, hx],
      by simp [Primary.yield, Primary.tree, Expr.word, ident, hx']⟩
termination_by structural d => d

@[inherit_doc Binary.exists_word]
theorem Operand.exists_word : (d : Operand) →
    ∃ d' : Operand, d'.tree = d.tree ∧ d'.yield = d.tree.word
  | .name text => ⟨.name text, rfl, rfl⟩
  | .literal kind text => ⟨.literal kind text, rfl, rfl⟩
  | .paren x => by
    obtain ⟨x', hx, hx'⟩ := x.exists_word
    exact ⟨.paren x', by simp [Operand.tree, hx],
      by simp [Operand.yield, Operand.tree, Expr.word, hx']⟩
  | .init cls elems => by
    obtain ⟨elems', helems, helems'⟩ := Elem.exists_elemWords elems
    exact ⟨.init cls elems', by simp [Operand.tree, helems],
      by simp [Operand.yield, Operand.tree, Expr.word, ident, helems']⟩
termination_by structural d => d

@[inherit_doc Binary.exists_word]
theorem Elem.exists_word : (d : Elem) →
    ∃ d' : Elem, d'.tree = d.tree ∧ d'.yield = Expr.elemWords [d.tree]
  | .mk key value => by
    obtain ⟨value', hvalue, hvalue'⟩ := value.exists_word
    exact ⟨.mk key value', by simp [Elem.tree, hvalue],
      by simp [Elem.yield, Elem.tree, Expr.elemWords, ident, hvalue']⟩
termination_by structural d => d

@[inherit_doc Binary.exists_word]
theorem Binary.exists_wordOf : (xs : Items1 (Binary 6)) → ∃ xs' : Items1 (Binary 6),
    Binary.treeAll xs' = Binary.treeAll xs ∧
      Binary.yieldAll xs' = Expr.wordOf (Binary.treeAll xs)
  | .last x => by
    obtain ⟨x', hx, hx'⟩ := x.exists_word
    exact ⟨.last x', by simp [Binary.treeAll, hx],
      by simp [Binary.yieldAll, Binary.treeAll, Expr.wordOf, hx']⟩
  | .more x rest => by
    obtain ⟨x', hx, hx'⟩ := x.exists_word
    obtain ⟨rest', hrest, hrest'⟩ := Binary.exists_wordOf rest
    refine ⟨.more x' rest', by simp [Binary.treeAll, hx, hrest], ?_⟩
    rw [Binary.treeAll, Expr.wordOf_cons (Binary.treeAll_ne_nil rest), Binary.yieldAll, hx', hrest']
termination_by structural xs => xs

@[inherit_doc Binary.exists_word]
theorem Elem.exists_elemWords : (es : Items Elem) → ∃ es' : Items Elem,
    Elem.treeAll es' = Elem.treeAll es ∧
      Elem.yieldAll es' = Expr.elemWords (Elem.treeAll es)
  | .none => ⟨.none, rfl, rfl⟩
  | .last x => by
    obtain ⟨x', hx, hx'⟩ := x.exists_word
    exact ⟨.last x', by simp [Elem.treeAll, hx], hx'⟩
  | .more x rest => by
    obtain ⟨x', hx, hx'⟩ := x.exists_word
    obtain ⟨rest', hrest, hrest'⟩ := Elem.exists_elemWords rest
    by_cases hnil : Elem.treeAll rest = []
    · -- the comma behind the last element goes
      exact ⟨.last x', by simp [Elem.treeAll, hx, hnil], by rw [Elem.treeAll, hnil]; exact hx'⟩
    · refine ⟨.more x' rest', by simp [Elem.treeAll, hx, hrest], ?_⟩
      rw [Elem.treeAll, Expr.elemWords_cons hnil, Elem.yieldAll, hx', hrest']
termination_by structural es => es

end

end Grammar

/-! Reading the source form -/

namespace Lexeme

theorem terminal_of_isMark {l : Lexeme} (h : l.token.isMark = true) : l.terminal = .mark l.token := by
  unfold terminal
  split <;> simp_all [Token.isMark]

/-- A lexeme of a text without a fault, whose strings are plain, can be written. -/
theorem written {l : Lexeme} (h : Scan.Legible l.token l.kind l.text)
    (hplain : l.token = .literal → l.kind = .string → ∀ c ∈ l.text.toList, Scan.IsPlain c) :
    l.terminal.Written := by
  obtain ⟨t, s, k, pos, faults⟩ := l
  change Scan.Legible t k s at h
  cases h with
  | word hs =>
      rcases Scan.ofWord_cases s with hword | hword
      · rw [terminal_of_name hword]
        exact ⟨hs, hword⟩
      · have hmark : (Token.ofWord s).isMark = true := by
          revert hword
          cases Token.ofWord s <;> decide
        rw [terminal_of_isMark hmark]
        exact hmark
  | number hs =>
      rw [terminal_of_literal rfl]
      cases k with
      | string => exact absurd rfl hs.ne_string
      | int => exact hs
      | float => exact hs
  | string s =>
      rw [terminal_of_literal rfl]
      exact hplain rfl rfl
  | sign hs =>
      have hmark : t.isMark = true := (Bool.and_eq_true_iff.1 hs).1
      rw [terminal_of_isMark hmark]
      exact hmark

theorem terminal_of_content {l : Lexeme} {t : Terminal} (ht : t.Written)
    (h : l.content = t.content) : l.token ≠ .eof ∧ l.terminal = t := by
  cases t with
  | name s =>
      obtain ⟨htoken, h⟩ := Prod.mk.inj h
      obtain ⟨_, rfl⟩ := Prod.mk.inj h
      exact ⟨by simp [htoken], terminal_of_name htoken⟩
  | literal k s =>
      obtain ⟨htoken, h⟩ := Prod.mk.inj h
      obtain ⟨rfl, rfl⟩ := Prod.mk.inj h
      exact ⟨by simp [htoken], terminal_of_literal htoken⟩
  | mark t =>
      obtain rfl : l.token = t := (Prod.mk.inj h).1
      exact ⟨fun heof => by simp [Grammar.Terminal.Written, heof, Token.isMark] at ht,
        terminal_of_isMark ht⟩

theorem word_of_contents {ls : List Lexeme} {ts : List Terminal} (hts : ∀ t ∈ ts, t.Written)
    (h : ls.map content = ts.map Terminal.content ++ [(Token.eof, LitKind.int, "")]) : word ls = ts := by
  induction ts generalizing ls with
  | nil =>
      obtain ⟨e, rfl, he⟩ := List.map_eq_singleton_iff.1 h
      exact word_eof (Prod.mk.inj he).1
  | cons t ts ih =>
      obtain ⟨l, ls, rfl, hl, hls⟩ := List.map_eq_cons_iff.1 h
      obtain ⟨heof, hterminal⟩ := terminal_of_content (hts t List.mem_cons_self) hl
      rw [word_cons heof, hterminal, ih (fun t ht => hts t (List.mem_cons_of_mem _ ht)) hls]

end Lexeme

/-- A text that is read as terminals is a text with these terminals. -/
theorem text_of_scans {text : String} {ts : List Terminal} (hts : ∀ t ∈ ts, t.Written)
    (h : Scan.Scans text.toList (ts.map Terminal.content) []) (file : String) :
    Lexeme.Text (lexemes file (Utf8.encode text)) ∧
      Lexeme.word (lexemes file (Utf8.encode text)) = ts :=
  have hread := h.lexemes file
  ⟨text_lexemes hread.2, Lexeme.word_of_contents hts hread.1⟩

/-- The statement of an expression in source form. -/
def Expr.stmtText (x : Expr) : String := x.text ++ ";"

/-- A function whose body is the statement of an expression in source form. -/
def Expr.mainText (x : Expr) : String := "fun main() \x7b\n" ++ x.stmtText ++ "\n\x7d"

/-- The terminals of `x.mainText`. -/
def Expr.mainWord (x : Expr) : List Terminal :=
  .mark .kwFun :: .name "main" :: .mark .lparen :: .mark .rparen :: .mark .lbrace ::
    (x.word ++ [Terminal.mark .semi, Terminal.mark .rbrace])

/-- The tree of `x.mainText`, positions aside. -/
def Expr.mainTree (name : String) (x : Expr) : File :=
  { name
    pos := .none
    decls := [.func
      { pos := .none
        name := ⟨.none, "main"⟩
        recv := none
        tparams := []
        params := []
        result := none
        body := some (.mk .none [.expr x] .none)
        host := false }] }

theorem Grammar.written_main : (Terminal.name "main").Written :=
  ⟨by decide +kernel, by decide +kernel⟩

namespace Scan

variable {x : Expr}

theorem scans_stmt (h : ∀ t ∈ x.word, t.Written) {rest : List Char} (hrest : EndsSign rest) :
    Scans x.stmtText.toList ((x.word ++ [Terminal.mark .semi]).map Terminal.content) rest := by
  have hsemi : Scans [';'] [(Terminal.mark .semi).content] rest :=
    Scans.nil.cons_sign (t := .semi) rfl rfl hrest
  simpa [Expr.stmtText] using (scans_expr x h _ (endsExpr_cons rfl)).append hsemi

theorem scans_main (h : ∀ t ∈ x.word, t.Written) :
    Scans x.mainText.toList (x.mainWord.map Terminal.content) [] := by
  have hclose : Scans ['\n', '}'] [(Terminal.mark .rbrace).content] [] :=
    (Scans.nil.cons_sign (t := .rbrace) rfl rfl endsSign_nil).cons_line
  have hbody := (scans_stmt h (endsSign_cons rfl)).append hclose
  have hblock := (hbody.cons_line.cons_sign (t := .lbrace) (c := '{') rfl rfl
    (endsSign_cons rfl)).cons_blank
  have hparams := (hblock.cons_sign (t := .rparen) (c := ')') rfl rfl (endsSign_cons rfl)).cons_sign
    (t := .lparen) (c := '(') rfl rfl (endsSign_cons rfl)
  have hfun := (scans_keyword (t := .kwFun) rfl (endsWord_cons (c := ' ') rfl)).append
    (hparams.append_name Grammar.written_main (endsWord_cons rfl)).cons_blank
  simpa [Expr.mainText, Expr.mainWord, Token.text] using hfun

end Scan

/-- A text that is parsed without a report has no lexical fault. -/
theorem faults_of_clean {name : String} {bytes : List UInt8}
    (h : (parseFile name bytes).reports = []) : ∀ l ∈ lexemes name bytes, l.faults = [] := by
  obtain ⟨ds, q, hparse, hruns⟩ := exists_parseFile_run name bytes
  have hrun := hruns _ (Nat.le_refl _)
  obtain ⟨_, hreported⟩ := Parse.reported_decls hrun
  rw [hparse] at h
  exact Parse.faults_nil hrun (hreported.clean h)

/-- An expression in the tree of a text without a report has a derivation of its source form, which
can be written if the strings of the text are plain. -/
theorem exists_derivation_of_mem {name : String} {bytes : List UInt8} {e : Expr}
    (h : (parseFile name bytes).reports = [])
    (hplain : ∀ l ∈ lexemes name bytes, l.token = .literal → l.kind = .string →
      ∀ c ∈ l.text.toList, Scan.IsPlain c)
    (he : .expr e ∈ (parseFile name bytes).file.nodes fun _ => true) :
    ∃ d : Grammar.Expr, d.tree = e.bare ∧ d.yield = e.word ∧ ∀ t ∈ e.word, t.Written := by
  obtain ⟨d, hyield, htree⟩ := exists_derivation_of_clean h
  have hbare : e.bare ∈ Node.exprs ((d.tree name).nodes fun _ => true) := by
    rw [← htree, File.exprs_bare]
    exact List.mem_map_of_mem (Node.mem_exprs.2 he)
  obtain ⟨d₁, htree₁, hsubset⟩ := d.derived_inside _ hbare
  obtain ⟨d₂, htree₂, hword⟩ := d₁.exists_word
  refine ⟨d₂, htree₂.trans htree₁, by rw [hword, htree₁, Expr.word_bare], fun t ht => ?_⟩
  have hmem : t ∈ Lexeme.word (lexemes name bytes) := by
    rw [← e.word_bare, ← htree₁] at ht
    exact hyield ▸ hsubset (d₁.word_sublist.subset ht)
  obtain ⟨l, hl, rfl⟩ := List.mem_map.1 hmem
  obtain ⟨hl, heof⟩ := List.mem_filter.1 hl
  exact Lexeme.written (Scan.legible_of_mem (faults_of_clean h) l hl (by simpa using heof))
    (hplain l hl)

namespace Parse

variable {ls : List Lexeme} {d : Grammar.Expr} {file : String}

/-- The statement of an expression is read to its end. -/
theorem exists_run_stmt (hls : Lexeme.Text ls) (hword : Lexeme.word ls = d.yield ++ [Terminal.mark .semi])
    {fuel : Nat} (hfuel : fuelFor ls.length ≤ fuel) :
    ∃ x q, (stmt fuel).run (start ls) = some (.expr x, q) ∧ q.reports = [] ∧
      q.current.token = .eof ∧ x.bare = d.tree := by
  have hsees : (start ls).Sees ((Grammar.Stmt.expr d).yield ++ []) := by
    have hyield : Lexeme.word ls = (Grammar.Stmt.expr d).yield ++ [] := by
      rw [hword, Grammar.Stmt.yield, List.append_nil]
    exact hyield ▸ start_sees hls
  have hends : Ends ls.length (stmt fuel) := (endsStmts fuel).stmt _ (Nat.le_trans (by
    unfold fuelFor
    omega) hfuel)
  obtain ⟨s, q, hrun, _⟩ := hends _ (size_start_le ls)
  obtain ⟨hq, hs⟩ := takes_stmt (.expr d) fuel (r := []) (by decide) _ _ _ hsees hrun
  cases s with
  | expr x => exact ⟨x, q, hrun, hq.clean.1, hq.token, Stmt.expr.inj hs⟩
  | _ => simp [Stmt.bare, Grammar.Stmt.tree] at hs

/-- A function whose body is the statement of an expression is read to its end. -/
theorem parseFile_main {bytes : List UInt8} {x : Expr} (hls : Lexeme.Text (lexemes file bytes))
    (hword : Lexeme.word (lexemes file bytes) = x.mainWord) (hyield : d.yield = x.word) :
    (parseFile file bytes).reports = [] ∧
      (parseFile file bytes).file.bare = d.tree.mainTree file := by
  let g : Derivation := ⟨[.func ⟨⟨"main", none, .plain .none, none⟩, .mk [.expr d]⟩]⟩
  have hg : g.yield = Lexeme.word (lexemes file bytes) := by
    rw [hword, Expr.mainWord, ← hyield]
    simp [g, Derivation.yield, Grammar.Decl.yield, Grammar.Func.yield, Grammar.Header.yield,
      Grammar.TParam.listYield, Grammar.Params.yield, Items.yield, Grammar.optional,
      Grammar.Block.yield, Grammar.Stmt.yieldAll, Grammar.Stmt.yield]
  obtain ⟨ds, q, hparse, hruns⟩ := exists_parseFile_run file bytes
  obtain ⟨hclean, hfile⟩ := derivation_read file hls (hruns _ (Nat.le_refl _)) hg
  rw [hparse]
  exact ⟨by rw [Parsed.ofRun, hclean.1, List.reverse_nil], hfile⟩

end Parse

/-- An expression in source form is read again. In a text without a report, whose strings have
printable characters of ASCII, line ends, tabs and carriage returns only, every expression of the
tree is the only content of the statement that its source form and a semicolon are: the
statement is read to its end without a report, and so is a function with this body. -/
theorem printed_expressions_read_back {name : String} {bytes : List UInt8} {e : Expr}
    (h : (parseFile name bytes).reports = [])
    (hplain : ∀ l ∈ lexemes name bytes, l.token = .literal → l.kind = .string →
      ∀ c ∈ l.text.toList, Scan.IsPlain c)
    (he : .expr e ∈ (parseFile name bytes).file.nodes fun _ => true) (file : String) :
    (∀ fuel, Parse.fuelFor (lexemes file (Utf8.encode e.stmtText)).length ≤ fuel → ∃ x q,
      (Parse.stmt fuel).run (Parse.start (lexemes file (Utf8.encode e.stmtText))) =
        some (.expr x, q) ∧ q.reports = [] ∧ q.current.token = .eof ∧ x.bare = e.bare) ∧
    (parseFile file (Utf8.encode e.mainText)).reports = [] ∧
    (parseFile file (Utf8.encode e.mainText)).file.bare = e.bare.mainTree file := by
  obtain ⟨d, htree, hyield, hwritten⟩ := exists_derivation_of_mem h hplain he
  rw [← htree]
  refine ⟨fun fuel hfuel => ?_, ?_⟩
  · have hwritten' : ∀ t ∈ e.word ++ [Terminal.mark .semi], t.Written :=
      List.forall_mem_append.2 ⟨hwritten, List.forall_mem_singleton.2 rfl⟩
    obtain ⟨hls, hword⟩ := text_of_scans hwritten'
      (Scan.scans_stmt hwritten Scan.endsSign_nil) file
    exact Parse.exists_run_stmt hls (hword.trans (by rw [hyield])) hfuel
  · have hwritten' : ∀ t ∈ e.mainWord, t.Written := by
      simp only [Expr.mainWord, List.forall_mem_cons, List.forall_mem_append]
      exact ⟨rfl, Grammar.written_main, rfl, rfl, rfl, hwritten, rfl, rfl, by simp⟩
    obtain ⟨hls, hword⟩ := text_of_scans hwritten' (Scan.scans_main hwritten) file
    exact Parse.parseFile_main hls hword hyield

/-- A text with a comma behind the last element of an initializer, a number with a fraction, signs
in front of each other, and a string with a line end. -/
def nestedText : String := "fun f()\x7bg.h(- -1.5*(n),C:init(s:\"a\\n\",));\x7d"

/-- The call in `nestedText`. -/
def nestedCall : Expr :=
  .call (.select (.name (Grammar.ident "g")) (Grammar.ident "h"))
    [.binary .mul (.unary .none .neg (.unary .none .neg (.literal .none .float "1.5")))
        (.paren .none (.name (Grammar.ident "n"))),
      .init (Grammar.ident "C") [(Grammar.ident "s", .literal .none .string "a\n")]]

example : nestedCall.stmtText = "g.h(--1.5 * (n), C:init(s: \"a\\n\"));" := by decide +kernel

theorem nestedText_read_back :
    (parseFile "t" (Utf8.encode nestedText)).reports = [] ∧
    (∀ l ∈ lexemes "t" (Utf8.encode nestedText), l.token = .literal → l.kind = .string →
      ∀ c ∈ l.text.toList, Scan.IsPlain c) ∧
    ∃ e, .expr e ∈ (parseFile "t" (Utf8.encode nestedText)).file.nodes (fun _ => true) ∧
      e.bare = nestedCall ∧
      (parseFile "u" (Utf8.encode e.mainText)).reports = [] ∧
      (parseFile "u" (Utf8.encode e.mainText)).file.bare = nestedCall.mainTree "u" := by
  have hstrings : ((lexemesOf "t" nestedText.toList).filter fun l =>
      l.token = .literal ∧ l.kind = .string).map (·.text) = ["a\n"] := by
    rw [nestedText, String.toList_ofList]
    decide +kernel
  have hparse : (fun p : Parsed => (p.reports, (Node.exprs (p.file.nodes fun _ => true)).head?.map
      Expr.bare)) (parseText "t" nestedText.toList) = ([], some nestedCall) := by
    rw [nestedText, String.toList_ofList]
    cbv
  rw [← parseFile_encode] at hparse
  rw [← lexemes_encode] at hstrings
  obtain ⟨hreports, hcall⟩ := Prod.mk.inj hparse
  obtain ⟨e, hhead, he⟩ := Option.map_eq_some_iff.1 hcall
  have hmem := Node.mem_exprs.1 (List.mem_of_head? hhead)
  have hplain : ∀ l ∈ lexemes "t" (Utf8.encode nestedText), l.token = .literal →
      l.kind = .string → ∀ c ∈ l.text.toList, Scan.IsPlain c := by
    intro l hl htoken hkind
    have htext : l.text ∈ ["a\n"] :=
      hstrings ▸ List.mem_map_of_mem (List.mem_filter.2 ⟨hl, by simp [htoken, hkind]⟩)
    rw [List.mem_singleton.1 htext]
    simp [Scan.IsPlain]
  obtain ⟨_, hmain, hfile⟩ := printed_expressions_read_back hreports hplain hmem "u"
  exact ⟨hreports, hplain, e, hmem, he, hmain, he ▸ hfile⟩

end ClassLang

import ClassLang.CommandLine
import ClassLang.Proofs.Tree.Names

/-!
How tokens are spelled. A token without a fault is a word, a number, a string or a sign, and
its spelling is read as this token again wherever the characters behind it cannot belong to it.
-/

namespace ClassLang

/-- What a lexeme says, wherever it stands. -/
def Lexeme.content (l : Lexeme) : Token × LitKind × String := (l.token, l.kind, l.text)

/-- A lexeme as it is written: a string in quotes, a word or a number by its characters, and
a sign by its token. -/
def Lexeme.rendering (l : Lexeme) : String :=
  match l.token with
  | .literal => if l.kind = .string then CommandLine.literalText l.text else l.text
  | .name => l.text
  | t => if t.isKeyword then l.text else t.text

/-- Whether a token is an operator or a delimiter. -/
def Token.isSign (t : Token) : Bool := t.isMark && !t.isKeyword

namespace Scan

/-! Glyphs of given characters -/

/-- The glyphs `gs` show the characters `cs`, none of them damaged. -/
structure Shows (gs : List Glyph) (cs : List Char) : Prop where
  chars : gs.map (·.char) = cs
  sound : ∀ g ∈ gs, g.wellFormed = true

namespace Shows

variable {g : Glyph} {gs gs' : List Glyph} {c : Char} {cs cs' : List Char}

theorem nil : Shows [] [] := ⟨rfl, by simp⟩

theorem append (h : Shows gs cs) (h' : Shows gs' cs') : Shows (gs ++ gs') (cs ++ cs') :=
  ⟨by rw [List.map_append, h.chars, h'.chars],
    fun g hg => (List.mem_append.1 hg).elim (h.sound g) (h'.sound g)⟩

theorem split (h : Shows gs (cs ++ cs')) :
    ∃ gs₁ gs₂, gs = gs₁ ++ gs₂ ∧ Shows gs₁ cs ∧ Shows gs₂ cs' := by
  obtain ⟨gs₁, gs₂, rfl, h₁, h₂⟩ := List.map_eq_append_iff.1 h.chars
  exact ⟨gs₁, gs₂, rfl, ⟨h₁, fun g hg => h.sound g (List.mem_append_left _ hg)⟩,
    ⟨h₂, fun g hg => h.sound g (List.mem_append_right _ hg)⟩⟩

theorem cons_iff : Shows (g :: gs) (c :: cs) ↔ g.char = c ∧ g.wellFormed = true ∧ Shows gs cs := by
  constructor
  · intro h
    obtain ⟨hc, hcs⟩ := List.cons.inj h.chars
    exact ⟨hc, h.sound g List.mem_cons_self,
      ⟨hcs, fun x hx => h.sound x (List.mem_cons_of_mem _ hx)⟩⟩
  · rintro ⟨rfl, hg, h⟩
    exact ⟨by rw [List.map_cons, h.chars], List.forall_mem_cons.2 ⟨hg, h.sound⟩⟩

theorem exists_cons (h : Shows gs (c :: cs)) :
    ∃ g rest, gs = g :: rest ∧ g.char = c ∧ Shows rest cs := by
  cases gs with
  | nil => cases h.chars
  | cons g rest => exact ⟨g, rest, rfl, (cons_iff.1 h).1, (cons_iff.1 h).2.2⟩

theorem eq_nil (h : Shows gs []) : gs = [] := List.map_eq_nil_iff.1 h.chars

theorem length (h : Shows gs cs) : gs.length = cs.length := by rw [← h.chars, List.length_map]

theorem spelling (h : Shows gs cs) : spelling gs = String.ofList cs := by
  rw [Scan.spelling, h.chars]

theorem forall_mem {p : Char → Bool} (h : Shows gs cs) (hp : ∀ c ∈ cs, p c = true) :
    ∀ g ∈ gs, p g.char = true :=
  fun _ hg => hp _ (h.chars ▸ List.mem_map_of_mem hg)

theorem head? (h : Shows gs cs) : gs.head?.map (·.char) = cs.head? := by
  rw [← h.chars, List.head?_map]

theorem isEmpty (h : Shows gs cs) : gs.isEmpty = cs.isEmpty := by rw [← h.chars, List.isEmpty_map]

end Shows

theorem shows_place (pos : Pos) (cs : List Char) :
    Shows (Glyph.place pos (cs.map fun c => ⟨c, true⟩)) cs := by
  induction cs generalizing pos with
  | nil => exact .nil
  | cons c cs ih => exact Shows.cons_iff.2 ⟨rfl, rfl, ih _⟩

/-- The character after which `cs` stands does not go on with characters of `p`. -/
def Stops (p : Char → Bool) (cs : List Char) : Prop := ∀ c ∈ cs.head?, p c = false

theorem stops_nil {p : Char → Bool} : Stops p [] := by simp [Stops]

theorem stops_cons {p : Char → Bool} {c : Char} {cs : List Char} :
    Stops p (c :: cs) ↔ p c = false := by simp [Stops]

theorem run_append {p : Char → Bool} {gs gs' : List Glyph} {rest : List Char}
    (h : ∀ g ∈ gs, p g.char = true) (hrest : Shows gs' rest) (hstop : Stops p rest) :
    run p (gs ++ gs') = gs := by
  rw [run, List.takeWhile_append_of_pos h]
  cases gs' with
  | nil => simp
  | cons g gs' =>
      have hg : p g.char = false := hstop _ (by simp [← hrest.head?])
      simp [hg]

/-! Numbers -/

/-- The spelling of a fraction: nothing, or a point and digits. -/
inductive IsFraction : List Char → Prop
  | none : IsFraction []
  | point {d : Char} {ds : List Char} (h : ∀ c ∈ d :: ds, isDigit c = true) :
    IsFraction ('.' :: d :: ds)

/-- The spelling of an exponent: nothing, or a mark, an optional sign and digits. -/
inductive IsExponent : List Char → Prop
  | none : IsExponent []
  | mark {m d : Char} {sign ds : List Char} (hm : m = 'e' ∨ m = 'E')
    (hsign : sign = [] ∨ sign = ['+'] ∨ sign = ['-']) (h : ∀ c ∈ d :: ds, isDigit c = true) :
    IsExponent (m :: (sign ++ d :: ds))

/-- The spelling of a number. -/
inductive IsNumber : LitKind → List Char → Prop
  | decimal {d : Char} {ds f e : List Char} (h : ∀ c ∈ d :: ds, isDigit c = true)
    (hf : IsFraction f) (he : IsExponent e) :
    IsNumber (if f.isEmpty && e.isEmpty then .int else .float) ((d :: ds) ++ (f ++ e))
  | hex {x d : Char} {ds : List Char} (hx : x = 'x' ∨ x = 'X')
    (h : ∀ c ∈ d :: ds, isHexDigit c = true) : IsNumber .int ('0' :: x :: d :: ds)

/-- What may stand behind a word or a number: no letter, no digit, and no fraction. -/
structure EndsWord (rest : List Char) : Prop where
  stops : Stops (fun c => isLetter c || isDigit c) rest
  point : ∀ d more, rest = '.' :: d :: more → isDigit d = false

theorem EndsWord.stops_digit {rest : List Char} (h : EndsWord rest) : Stops isDigit rest := by
  intro c hc
  have hstop := h.stops c hc
  simp only [Bool.or_eq_false_iff] at hstop
  exact hstop.2

theorem EndsWord.stops_letter {rest : List Char} (h : EndsWord rest) : Stops isLetter rest := by
  intro c hc
  have hstop := h.stops c hc
  simp only [Bool.or_eq_false_iff] at hstop
  exact hstop.1

theorem isLetter_of_isHexDigit {c : Char} (h : isHexDigit c = true) :
    (isLetter c || isDigit c) = true := by
  simp only [isHexDigit, isLetter, isDigit, Bool.or_eq_true, Bool.and_eq_true,
    decide_eq_true_eq] at *
  rcases h with (h | ⟨h, h'⟩) | ⟨h, h'⟩
  · exact Or.inr h
  · exact Or.inl (Or.inl (Or.inl ⟨h, Char.le_trans h' (by decide)⟩))
  · exact Or.inl (Or.inl (Or.inr ⟨h, Char.le_trans h' (by decide)⟩))

section

variable {eof : Pos} {gs gs' : List Glyph} {cs rest : List Char}

theorem fraction_append (hf : IsFraction cs) (hgs : Shows gs cs) (hrest : Shows gs' rest)
    (hstop : Stops isDigit rest) (hpoint : ∀ d more, rest = '.' :: d :: more → isDigit d = false) :
    fraction (gs ++ gs') = gs := by
  cases hf with
  | none =>
      obtain rfl := hgs.eq_nil
      rw [List.nil_append]
      unfold fraction
      split
      next point digit more =>
        have hchars := hrest.chars
        refine if_neg fun h => ?_
        simp only [Bool.and_eq_true, decide_eq_true_eq] at h
        rw [List.map_cons, List.map_cons, h.1] at hchars
        rw [hpoint _ _ hchars.symm] at h
        exact Bool.false_ne_true h.2
      next => rfl
  | @point d ds h =>
      obtain ⟨p, gs, rfl, hp, hgs⟩ := hgs.exists_cons
      obtain ⟨g, gs, rfl, hg, hgs⟩ := hgs.exists_cons
      have hd : isDigit g.char = true := hg ▸ h _ List.mem_cons_self
      have hds := run_append (hgs.forall_mem fun c hc => h c (List.mem_cons_of_mem _ hc))
        hrest hstop
      simp [fraction, hp, hd, hds]

theorem sign_append {s : List Char} {d : Char}
    (hs : s = [] ∨ s = ['+'] ∨ s = ['-']) (hgs : Shows gs s) (hrest : Shows gs' (d :: cs))
    (hd : isDigit d = true) : sign (gs ++ gs') = gs := by
  obtain ⟨g, gs', rfl, hg, _⟩ := hrest.exists_cons
  rcases hs with rfl | rfl | rfl
  · obtain rfl := hgs.eq_nil
    have hplus : g.char ≠ '+' := by rw [hg]; rintro rfl; cases hd
    have hminus : g.char ≠ '-' := by rw [hg]; rintro rfl; cases hd
    simp [sign, hplus, hminus]
  all_goals
    obtain ⟨x, gs, rfl, hx, hgs⟩ := hgs.exists_cons
    obtain rfl := hgs.eq_nil
    simp [sign, hx]

theorem exponent_append (he : IsExponent cs) (hgs : Shows gs cs) (hrest : Shows gs' rest)
    (hend : EndsWord rest) : exponent eof (gs ++ gs') = (gs, []) := by
  cases he with
  | none =>
      obtain rfl := hgs.eq_nil
      cases gs' with
      | nil => rfl
      | cons g gs' =>
          have hletter : isLetter g.char = false := hend.stops_letter _ (by simp [← hrest.head?])
          have he : g.char ≠ 'e' := by rintro h; rw [h] at hletter; cases hletter
          have hE : g.char ≠ 'E' := by rintro h; rw [h] at hletter; cases hletter
          simp [exponent, he, hE]
  | @mark m d s ds hm hsign h =>
      obtain ⟨g, gs, rfl, hg, hgs⟩ := hgs.exists_cons
      obtain ⟨gs₁, gs₂, rfl, hgs₁, hgs₂⟩ := hgs.split
      have hmark : (g.char = 'e' ∨ g.char = 'E') := hg ▸ hm
      have hs := sign_append hsign hgs₁ (hgs₂.append hrest) (h d List.mem_cons_self)
      have hds := run_append (hgs₂.forall_mem h) hrest hend.stops_digit
      have hne : gs₂.isEmpty = false := by rw [hgs₂.isEmpty]; rfl
      simp only [exponent, List.cons_append, List.append_assoc, hs, List.drop_left, hds, hne]
      simp [hmark]

/-- A number is read up to its end. -/
theorem number_append {d : Char} {ds f e : List Char} (h : ∀ c ∈ d :: ds, isDigit c = true)
    (hf : IsFraction f) (he : IsExponent e) (hgs : Shows gs ((d :: ds) ++ (f ++ e)))
    (hrest : Shows gs' rest) (hend : EndsWord rest) :
    number eof (gs ++ gs') =
      ⟨.lexeme .literal (if f.isEmpty && e.isEmpty then .int else .float)
        (String.ofList ((d :: ds) ++ (f ++ e))), gs.length, [], eof⟩ := by
  have hspelling := hgs.spelling
  obtain ⟨whole, more, rfl, hwhole, hmore⟩ := hgs.split
  obtain ⟨frac, exp, rfl, hfrac, hexp⟩ := hmore.split
  have hexpStops : Stops isDigit (e ++ rest) ∧
      ∀ x more, e ++ rest = '.' :: x :: more → isDigit x = false := by
    cases he with
    | none => exact ⟨hend.stops_digit, hend.point⟩
    | mark hm =>
        constructor
        · rcases hm with rfl | rfl <;> exact stops_cons.2 (by decide)
        · rcases hm with rfl | rfl <;> exact fun x more hx => by cases hx
  have hfracStops : Stops isDigit (f ++ (e ++ rest)) := by
    cases hf with
    | none => exact hexpStops.1
    | point _ => exact stops_cons.2 (by decide)
  have hrun : run isDigit (whole ++ (frac ++ (exp ++ gs'))) = whole :=
    run_append (hwhole.forall_mem h) (hfrac.append (hexp.append hrest)) hfracStops
  have hfraction : fraction (frac ++ (exp ++ gs')) = frac :=
    fraction_append hf hfrac (hexp.append hrest) hexpStops.1 hexpStops.2
  have hexponent : exponent eof (exp ++ gs') = (exp, []) := exponent_append he hexp hrest hend
  simp only [number, List.append_assoc, hrun, List.drop_left, hfraction, hexponent,
    hfrac.isEmpty, hexp.isEmpty, hspelling]

end

/-! Strings -/

section

variable {eof : Pos} {g e : Glyph} {c : Char} {chars : List Char} {size : Nat}
  {rest : List Glyph}

theorem stringBody_quote (hg : g.char = '"') : stringBody eof (g :: rest) = ([], 1, [], eof) := by
  unfold stringBody
  rw [if_pos hg]

theorem stringBody_escape (hg : g.char = '\\') (he : unescape e.char = some c)
    (hrest : stringBody eof rest = (chars, size, [], eof)) :
    stringBody eof (g :: e :: rest) = (c :: chars, size + 2, [], eof) := by
  unfold stringBody
  simp [hg, he, hrest]

theorem stringBody_plain (hquote : g.char ≠ '"') (hline : g.char ≠ '\n') (hescape : g.char ≠ '\\')
    (hrest : stringBody eof rest = (chars, size, [], eof)) :
    stringBody eof (g :: rest) = (g.char :: chars, size + 1, [], eof) := by
  unfold stringBody
  simp [hquote, hline, hescape, hrest]

end

/-- A character of a literal is an escape that stands for it, or it stands for itself. -/
theorem literalChar_cases (c : Char) :
    (∃ x, (CommandLine.literalChar c).toList = ['\\', x] ∧ unescape x = some c) ∨
      (CommandLine.literalChar c).toList = [c] ∧ c ≠ '"' ∧ c ≠ '\n' ∧ c ≠ '\\' := by
  unfold CommandLine.literalChar
  split
  · exact Or.inl ⟨'n', rfl, rfl⟩
  · exact Or.inl ⟨'t', rfl, rfl⟩
  · exact Or.inl ⟨'r', rfl, rfl⟩
  · exact Or.inl ⟨'\\', rfl, rfl⟩
  · exact Or.inl ⟨'"', rfl, rfl⟩
  next hline _ _ hescape hquote =>
    exact Or.inr ⟨String.toList_singleton _, hquote, hline, hescape⟩

/-- The characters of a text are read back from their written form. -/
theorem stringBody_literal {eof : Pos} {s : List Char} {gs gs' : List Glyph}
    (hgs : Shows gs (s.flatMap (fun c => (CommandLine.literalChar c).toList) ++ ['"'])) :
    stringBody eof (gs ++ gs') = (s, gs.length, [], eof) := by
  induction s generalizing gs with
  | nil =>
      obtain ⟨g, gs, rfl, hg, hgs⟩ := hgs.exists_cons
      obtain rfl := hgs.eq_nil
      exact stringBody_quote hg
  | cons c s ih =>
      rw [List.flatMap_cons, List.append_assoc] at hgs
      obtain ⟨gs₁, gs₂, rfl, hgs₁, hgs₂⟩ := hgs.split
      have hrest := ih hgs₂
      rcases literalChar_cases c with ⟨x, hchars, hx⟩ | ⟨hchars, hquote, hline, hescape⟩
      · rw [hchars] at hgs₁
        obtain ⟨g, gs₁, rfl, hg, hgs₁⟩ := hgs₁.exists_cons
        obtain ⟨e, gs₁, rfl, he, hgs₁⟩ := hgs₁.exists_cons
        obtain rfl := hgs₁.eq_nil
        exact stringBody_escape hg (he ▸ hx) hrest
      · rw [hchars] at hgs₁
        obtain ⟨g, gs₁, rfl, rfl, hnil⟩ := hgs₁.exists_cons
        obtain rfl := hnil.eq_nil
        exact stringBody_plain hquote hline hescape hrest

/-! Signs -/

/-- What may stand behind a sign: nothing that makes a longer one, or a comment, of it. -/
def EndsSign (rest : List Char) : Prop :=
  Stops (fun c => c = '=' || c = '&' || c = '|' || c = '/') rest

theorem double_eq_none {c d : Char} (h : (d = '=' || d = '&' || d = '|' || d = '/') = false) :
    double c d = none := by
  simp only [Bool.or_eq_false_iff, decide_eq_false_iff_not] at h
  unfold double
  split <;> simp_all

section

variable {eof : Pos} {g x : Glyph} {gs gs' rest : List Glyph} {cs : List Char} {t : Token}

theorem symbol_single (hsingle : single g.char = some t) (hrest : Shows rest cs)
    (hend : EndsSign cs) : symbol eof g rest = operator eof t 1 [] := by
  have hnext : ∀ d ∈ rest.head?.map (·.char),
      (d = '=' || d = '&' || d = '|' || d = '/') = false :=
    hrest.head? ▸ hend
  have hslash : rest.head?.map (·.char) ≠ some '/' := fun h => by
    have := hnext '/' h
    cases this
  have hdouble : (rest.head?.map (·.char)).bind (double g.char) = none := by
    cases hhead : rest.head?.map (·.char) with
    | none => rfl
    | some d => exact double_eq_none (hnext d hhead)
  have hamp : g.char ≠ '&' := by rintro h; rw [h] at hsingle; cases hsingle
  have hbar : g.char ≠ '|' := by rintro h; rw [h] at hsingle; cases hsingle
  simp [symbol, hslash, hdouble, hamp, hbar, hsingle]

theorem symbol_double (hdouble : double g.char x.char = some t) :
    symbol eof g (x :: rest) = operator eof t 2 [] := by
  have hslash : ¬ (g.char = '/' ∧ x.char = '/') := by
    rintro ⟨h, h'⟩
    rw [h, h'] at hdouble
    cases hdouble
  simp [symbol, hslash, hdouble]

theorem first_symbol (hblank : isBlank g.char = false) (hletter : isLetter g.char = false)
    (hdigit : isDigit g.char = false) (hquote : g.char ≠ '"') :
    first eof g rest = symbol eof g rest := by
  simp [first, hblank, hletter, hdigit, hquote]

/-- A sign has one character, or it has two that belong together. -/
theorem text_sign (h : t.isSign = true) :
    (∃ c, t.text.toList = [c] ∧ single c = some t ∧ isBlank c = false ∧ isLetter c = false ∧
        isDigit c = false ∧ c ≠ '"') ∨
      ∃ c d, t.text.toList = [c, d] ∧ double c d = some t ∧ isBlank c = false ∧
        isLetter c = false ∧ isDigit c = false ∧ c ≠ '"' := by
  cases t
  all_goals first
    | exact absurd h (by decide)
    | exact Or.inl ⟨_, rfl, rfl, rfl, rfl, rfl, by decide⟩
    | exact Or.inr ⟨_, _, rfl, rfl, rfl, rfl, rfl, by decide⟩

end

/-! Reading one token -/

/-- What a token can say: a word, a number, a string, or a sign. -/
inductive Legible : Token → LitKind → String → Prop
  | word {s : String} (h : IsName s) : Legible (Token.ofWord s) .int s
  | number {k : LitKind} {s : String} (h : IsNumber k s.toList) : Legible .literal k s
  | string (s : String) : Legible .literal .string s
  | sign {t : Token} (h : t.isSign = true) : Legible t .int t.text

/-- The characters `cs` in front of `rest` are read as one token that says `content`. -/
def ReadsAs (cs : List Char) (content : Token × LitKind × String) (rest : List Char) : Prop :=
  ∀ eof g gs gs', Shows (g :: gs) cs → Shows gs' rest →
    first eof g (gs ++ gs') =
      ⟨.lexeme content.1 content.2.1 content.2.2, (g :: gs).length, [], eof⟩

section

variable {cs rest : List Char}

/-- A class of characters without the blanks has none of them. -/
theorem not_isBlank {p : Char → Bool} {c : Char} (h : p c = true)
    (hp : p ' ' = false ∧ p '\t' = false ∧ p '\r' = false ∧ p '\n' = false) :
    isBlank c = false := by
  obtain ⟨hspace, htab, hreturn, hline⟩ := hp
  refine Bool.eq_false_iff.2 fun hblank => ?_
  simp only [isBlank, Bool.or_eq_true, decide_eq_true_eq] at hblank
  rcases hblank with ((rfl | rfl) | rfl) | rfl <;> simp_all

theorem readsAs_word {s : String} (h : IsName s)
    (hrest : Stops (fun c => isLetter c || isDigit c) rest) :
    ReadsAs s.toList (Token.ofWord s, .int, s) rest := by
  intro eof g gs gs' hgs hgs'
  have hchars : s.toList = g.char :: gs.map (·.char) := hgs.chars.symm
  have hletter : isLetter g.char = true := by simpa [hchars] using h.1
  have hblank := not_isBlank hletter (by decide)
  have hrun : run (fun c => isLetter c || isDigit c) (gs ++ gs') = gs :=
    run_append (fun x hx => List.all_eq_true.1 h.2 _ (by
      rw [hchars]
      exact List.mem_cons_of_mem _ (List.mem_map_of_mem hx))) hgs' hrest
  have hspelling : spelling (g :: gs) = s := by rw [hgs.spelling, String.ofList_toList]
  simp only [first, hblank, hletter, hrun, hspelling]
  rfl

theorem isLetter_of_isDigit {c : Char} (h : isDigit c = true) : isLetter c = false := by
  simp only [isDigit, Bool.and_eq_true, decide_eq_true_eq] at h
  cases hletter : isLetter c with
  | false => rfl
  | true =>
      simp only [isLetter, Bool.or_eq_true, Bool.and_eq_true, decide_eq_true_eq] at hletter
      rcases hletter with (⟨ha, _⟩ | ⟨ha, _⟩) | rfl
      · exact absurd (Char.le_trans ha h.2) (by decide)
      · exact absurd (Char.le_trans ha h.2) (by decide)
      · exact absurd h.2 (by decide)

/-- The character behind a digit of a decimal number is not the mark of a hexadecimal one. -/
theorem behind_digit {d : Char} {ds f e : List Char} (h : ∀ c ∈ d :: ds, isDigit c = true)
    (hf : IsFraction f) (he : IsExponent e) (hrest : EndsWord rest) :
    ∀ c ∈ (ds ++ (f ++ (e ++ rest))).head?, c ≠ 'x' ∧ c ≠ 'X' := by
  intro c hc
  cases ds with
  | cons d' ds =>
      obtain rfl : d' = c := by simpa using hc
      have hd := h d' (by simp)
      constructor <;> rintro rfl <;> cases hd
  | nil =>
      cases hf with
      | point _ =>
          obtain rfl : '.' = c := by simpa using hc
          decide
      | none =>
          cases he with
          | mark hm _ _ =>
              obtain rfl := Option.some.inj hc
              rcases hm with rfl | rfl <;> decide
          | none =>
              have hletter := hrest.stops_letter c hc
              constructor <;> rintro rfl <;> cases hletter

theorem first_number {eof : Pos} {g : Glyph} {gs : List Glyph} (hg : isDigit g.char = true)
    (hmark : ∀ c ∈ gs.head?.map (·.char), c ≠ 'x' ∧ c ≠ 'X') :
    first eof g gs = number eof (g :: gs) := by
  have hblank := not_isBlank hg (by decide)
  have hletter := isLetter_of_isDigit hg
  cases gs with
  | nil => simp [first, hblank, hletter, hg]
  | cons x gs =>
      obtain ⟨hx, hX⟩ := hmark x.char rfl
      simp [first, hblank, hletter, hg, hx, hX]

theorem first_hexNumber {eof : Pos} {g x : Glyph} {gs : List Glyph} (hg : g.char = '0')
    (hx : x.char = 'x' ∨ x.char = 'X') : first eof g (x :: gs) = hexNumber eof g x gs := by
  have hblank : isBlank '0' = false := rfl
  have hletter : isLetter '0' = false := rfl
  have hdigit : isDigit '0' = true := rfl
  simp [first, hblank, hletter, hdigit, hg, hx]

theorem readsAs_number {k : LitKind} (h : IsNumber k cs) (hrest : EndsWord rest) :
    ReadsAs cs (.literal, k, String.ofList cs) rest := by
  intro eof g gs gs' hgs hgs'
  cases h with
  | @decimal d ds f e h hf he =>
      obtain ⟨rfl, _, hmore⟩ := Shows.cons_iff.1 hgs
      have hmore : Shows gs (ds ++ (f ++ e)) := hmore
      have hmark := behind_digit h hf he hrest
      rw [← List.append_assoc f, ← List.append_assoc, ← (hmore.append hgs').head?] at hmark
      rw [first_number (h _ List.mem_cons_self) hmark, ← List.cons_append,
        number_append h hf he hgs hgs' hrest]
  | @hex x d ds hx h =>
      have hspelling := hgs.spelling
      obtain ⟨hzero, _, hmore⟩ := Shows.cons_iff.1 hgs
      obtain ⟨x, gs, rfl, rfl, hds⟩ := hmore.exists_cons
      have hstop : Stops isHexDigit rest := by
        intro c hc
        refine Bool.eq_false_iff.2 fun hdigit => ?_
        exact absurd (isLetter_of_isHexDigit hdigit) (by simp [hrest.stops c hc])
      have hrun := run_append (hds.forall_mem h) hgs' hstop
      have hne : gs.isEmpty = false := by rw [hds.isEmpty]; rfl
      rw [List.cons_append, first_hexNumber hzero hx]
      simp only [hexNumber, hrun, hne, hspelling]
      rfl

theorem readsAs_string (s : String) :
    ReadsAs (CommandLine.literalText s).toList (.literal, .string, s) rest := by
  intro eof g gs gs' hgs hgs'
  have hchars : (CommandLine.literalText s).toList =
      '"' :: (s.toList.flatMap (fun c => (CommandLine.literalChar c).toList) ++ ['"']) := by
    simp [CommandLine.literalText, String.toList_append, String.toList_join, List.flatMap_map]
  rw [hchars] at hgs
  obtain ⟨hg, _, hgs⟩ := Shows.cons_iff.1 hgs
  simp [first, hg, isBlank, isLetter, isDigit, string, stringBody_literal hgs, String.ofList_toList]

theorem readsAs_sign {t : Token} (h : t.isSign = true) (hrest : EndsSign rest) :
    ReadsAs t.text.toList (t, .int, t.text) rest := by
  intro eof g gs gs' hgs hgs'
  rcases text_sign h with ⟨c, htext, hsingle, hblank, hletter, hdigit, hquote⟩ |
    ⟨c, d, htext, hdouble, hblank, hletter, hdigit, hquote⟩
  · rw [htext] at hgs
    obtain ⟨rfl, _, hgs⟩ := Shows.cons_iff.1 hgs
    obtain rfl := hgs.eq_nil
    rw [first_symbol hblank hletter hdigit hquote, List.nil_append,
      symbol_single hsingle hgs' hrest]
    rfl
  · rw [htext] at hgs
    obtain ⟨rfl, _, hgs⟩ := Shows.cons_iff.1 hgs
    obtain ⟨x, gs, rfl, rfl, hnil⟩ := hgs.exists_cons
    obtain rfl := hnil.eq_nil
    rw [first_symbol hblank hletter hdigit hquote, List.cons_append, symbol_double hdouble]
    rfl

theorem ofWord_cases (s : String) :
    Token.ofWord s = .name ∨ (Token.ofWord s).isKeyword = true := by
  unfold Token.ofWord
  cases h : Token.keywords.find? (·.text == s) with
  | none => exact Or.inl rfl
  | some t => exact Or.inr (List.mem_filter.1 (List.mem_of_find?_eq_some h)).2

theorem IsNumber.ne_string {k : LitKind} (h : IsNumber k cs) : k ≠ .string := by
  cases h with
  | decimal => split <;> decide
  | hex => decide

section

variable (s : String) (pos : Pos) (faults : List LexError)

theorem rendering_word (k : LitKind) : Lexeme.rendering ⟨Token.ofWord s, s, k, pos, faults⟩ = s := by
  unfold Lexeme.rendering
  rcases ofWord_cases s with hs | hs
  · simp [hs]
  · split <;> simp_all [Token.isKeyword]

theorem rendering_number {k : LitKind} (h : k ≠ .string) :
    Lexeme.rendering ⟨.literal, s, k, pos, faults⟩ = s := if_neg h

theorem rendering_sign {t : Token} (h : t.isSign = true) (k : LitKind) :
    Lexeme.rendering ⟨t, s, k, pos, faults⟩ = t.text := by
  simp only [Token.isSign, Bool.and_eq_true, Bool.not_eq_true'] at h
  unfold Lexeme.rendering
  split <;> simp_all [Token.isMark]

end

theorem IsNumber.ne_nil {k : LitKind} (h : IsNumber k cs) : cs ≠ [] := by
  cases h <;> simp

/-- What a lexeme can say is read from its rendering, if nothing behind it belongs to it. -/
theorem Legible.readsAs {t : Token} {k : LitKind} {s : String} (h : Legible t k s) (pos : Pos)
    (faults : List LexError) (hword : EndsWord rest) (hsign : EndsSign rest) :
    (Lexeme.rendering ⟨t, s, k, pos, faults⟩).toList ≠ [] ∧
      ReadsAs (Lexeme.rendering ⟨t, s, k, pos, faults⟩).toList (t, k, s) rest := by
  cases h with
  | word h =>
      rw [rendering_word]
      exact ⟨h.ne_nil, readsAs_word h hword.stops⟩
  | number h =>
      rw [rendering_number _ _ _ h.ne_string]
      exact ⟨h.ne_nil, by simpa using readsAs_number h hword⟩
  | string s => exact ⟨by simp [Lexeme.rendering, CommandLine.literalText], readsAs_string s⟩
  | sign h =>
      rw [rendering_sign _ _ _ h]
      refine ⟨?_, readsAs_sign h hsign⟩
      rcases text_sign h with ⟨c, htext, _⟩ | ⟨c, d, htext, _⟩ <;> simp [htext]

end

/-! Tokens of a text without a fault -/

section

variable {eof : Pos} {g : Glyph} {gs rest : List Glyph} {t : Token} {k : LitKind} {s : String}

theorem mem_run {p : Char → Bool} : ∀ c ∈ (run p gs).map (·.char), p c = true := by
  intro c hc
  obtain ⟨g, hg, rfl⟩ := List.mem_map.1 hc
  exact List.all_eq_true.1 List.all_takeWhile g hg

theorem isFraction_fraction (gs : List Glyph) : IsFraction ((fraction gs).map (·.char)) := by
  unfold fraction
  split
  next point digit rest =>
    split
    next h =>
      simp only [Bool.and_eq_true, decide_eq_true_eq] at h
      rw [List.map_cons, List.map_cons, h.1]
      exact .point (List.forall_mem_cons.2 ⟨h.2, mem_run⟩)
    next => exact .none
  next => exact .none

theorem sign_cases (gs : List Glyph) : (sign gs).map (·.char) = [] ∨
    (sign gs).map (·.char) = ['+'] ∨ (sign gs).map (·.char) = ['-'] := by
  cases gs with
  | nil => exact Or.inl rfl
  | cons g gs =>
      simp only [sign]
      split
      next h =>
        simp only [Bool.or_eq_true, decide_eq_true_eq] at h
        exact Or.inr (h.imp (by simp +contextual) (by simp +contextual))
      next => exact Or.inl rfl

theorem isExponent_exponent (h : (exponent eof gs).2 = []) :
    IsExponent ((exponent eof gs).1.map (·.char)) := by
  cases gs with
  | nil => exact .none
  | cons mark gs =>
      simp only [exponent] at h ⊢
      split at h
      next hmark =>
        rw [if_pos hmark]
        simp only [Bool.or_eq_true, decide_eq_true_eq] at hmark
        have hdigits : ∀ c ∈ (run isDigit (gs.drop (sign gs).length)).map (·.char),
            isDigit c = true := mem_run
        cases hrun : run isDigit (gs.drop (sign gs).length) with
        | nil => simp [hrun] at h
        | cons d ds =>
            rw [hrun, List.map_cons] at hdigits
            simp only [List.map_cons, List.map_append]
            exact .mark hmark (sign_cases gs) hdigits
      next hmark =>
        rw [if_neg hmark]
        exact .none

theorem isNumber_number (hg : isDigit g.char = true) (h : (number eof (g :: gs)).faults = []) :
    ∃ k s, (number eof (g :: gs)).kind = .lexeme .literal k s ∧ IsNumber k s.toList := by
  have hwhole : run isDigit (g :: gs) = g :: run isDigit gs := by simp [run, hg]
  have hdigits : ∀ c ∈ g.char :: (run isDigit gs).map (·.char), isDigit c = true :=
    List.forall_mem_cons.2 ⟨hg, mem_run⟩
  simp only [number, hwhole] at h ⊢
  refine ⟨_, _, rfl, ?_⟩
  have hnumber := IsNumber.decimal hdigits
    (isFraction_fraction ((g :: gs).drop (g :: run isDigit gs).length)) (isExponent_exponent h)
  simpa [spelling] using hnumber

theorem isNumber_hexNumber {x : Glyph} (hg : g.char = '0') (hx : x.char = 'x' ∨ x.char = 'X')
    (h : (hexNumber eof g x gs).faults = []) :
    ∃ s, (hexNumber eof g x gs).kind = .lexeme .literal .int s ∧ IsNumber .int s.toList := by
  have hdigits : ∀ c ∈ (run isHexDigit gs).map (·.char), isHexDigit c = true := mem_run
  unfold hexNumber at h ⊢
  refine ⟨_, rfl, ?_⟩
  cases hrun : run isHexDigit gs with
  | nil => simp [hrun] at h
  | cons d ds =>
      rw [hrun, List.map_cons] at hdigits
      simpa [spelling, hg] using IsNumber.hex hx hdigits

theorem isName_of_letter (gs : List Glyph) (h : isLetter g.char = true) :
    IsName (spelling (g :: run (fun c => isLetter c || isDigit c) gs)) := by
  have hrun : ∀ c ∈ (run (fun c => isLetter c || isDigit c) gs).map (·.char),
      (isLetter c || isDigit c) = true := mem_run
  constructor
  · simp [spelling, h]
  · refine List.all_eq_true.2 ?_
    simpa [spelling, h] using hrun

theorem isSign_double {c d : Char} (h : double c d = some t) : t.isSign = true := by
  unfold double at h
  split at h <;> cases h <;> rfl

theorem isSign_single {c : Char} (h : single c = some t) : t.isSign = true := by
  unfold single at h
  split at h <;> cases h <;> rfl

theorem legible_symbol (h : (symbol eof g rest).kind = .lexeme t k s)
    (hfaults : (symbol eof g rest).faults = []) : Legible t k s := by
  unfold symbol operator at h hfaults
  dsimp only at h hfaults
  split at h
  · cases h
  next hcomment =>
    rw [if_neg hcomment] at hfaults
    split at h
    next t' hdouble =>
      obtain ⟨d, _, hdouble⟩ := Option.bind_eq_some_iff.1 hdouble
      obtain ⟨rfl, rfl, rfl⟩ := Kind.lexeme.inj h
      exact .sign (isSign_double hdouble)
    next hdouble =>
      simp only [hdouble] at hfaults
      split at h
      next hamp => simp [hamp] at hfaults
      next hamp =>
        rw [if_neg hamp] at hfaults
        split at h
        next hbar => simp [hbar] at hfaults
        next hbar =>
          split at h
          next t' hsingle =>
            obtain ⟨rfl, rfl, rfl⟩ := Kind.lexeme.inj h
            exact .sign (isSign_single hsingle)
          next => cases h

/-- A token that is read without a fault says something readable. -/
theorem legible_first (h : (first eof g rest).kind = .lexeme t k s)
    (hfaults : (first eof g rest).faults = []) : Legible t k s := by
  unfold first at h hfaults
  split at h
  · cases h
  next hblank =>
    rw [if_neg hblank] at hfaults
    split at h
    next hletter =>
      have hword := isName_of_letter rest hletter
      obtain ⟨rfl, rfl, rfl⟩ := Kind.lexeme.inj h
      exact .word hword
    next hletter =>
      rw [if_neg hletter] at hfaults
      split at h
      next hdigit =>
        rw [if_pos hdigit] at hfaults
        have hdecimal : ∀ rest', (number eof (g :: rest')).kind = .lexeme t k s →
            (number eof (g :: rest')).faults = [] → Legible t k s := by
          intro rest' hkind hnone
          obtain ⟨k', s', hkind', hnumber⟩ := isNumber_number hdigit hnone
          obtain ⟨rfl, rfl, rfl⟩ := Kind.lexeme.inj (hkind'.symm.trans hkind)
          exact .number hnumber
        cases rest with
        | nil => exact hdecimal [] h hfaults
        | cons x more =>
            dsimp only at h hfaults
            split at h
            next hhex =>
              rw [if_pos hhex] at hfaults
              simp only [Bool.and_eq_true, Bool.or_eq_true, decide_eq_true_eq] at hhex
              obtain ⟨s', hkind', hnumber⟩ := isNumber_hexNumber hhex.1 hhex.2 hfaults
              obtain ⟨rfl, rfl, rfl⟩ := Kind.lexeme.inj (hkind'.symm.trans h)
              exact .number hnumber
            next hhex =>
              rw [if_neg hhex] at hfaults
              exact hdecimal _ h hfaults
      next hdigit =>
        rw [if_neg hdigit] at hfaults
        split at h
        next =>
          obtain ⟨rfl, rfl, rfl⟩ := Kind.lexeme.inj h
          exact .string _
        next hquote =>
          rw [if_neg hquote] at hfaults
          exact legible_symbol h hfaults

end

end Scan

end ClassLang

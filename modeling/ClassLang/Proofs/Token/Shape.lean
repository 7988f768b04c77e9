import ClassLang.Proofs.Token.Spelling

/-!
What the pieces of any text look like, also of one with faults. A piece is a run of blanks, a
comment, a single character that starts nothing, or a token; a damaged token is still one of
the shapes that are listed here. Each piece covers at least one character and no more than
there are.
-/

namespace ClassLang.Scan

/-! Shapes -/

/-- A character with which no piece of another kind starts. -/
structure IsStray (c : Char) : Prop where
  blank : isBlank c = false
  letter : isLetter c = false
  digit : isDigit c = false
  quote : c ≠ '"'
  ampersand : c ≠ '&'
  bar : c ≠ '|'
  single : single c = none

/-- The characters of a string literal behind its opening quote, and its contents. A literal
ends with a quote, or else in front of the end of its line or of the text. -/
inductive IsBody : List Char → List Char → Prop
  | closed : IsBody ['"'] []
  | unterminated : IsBody [] []
  | openEscape : IsBody ['\\'] []
  | plain {c : Char} {cs s : List Char} (hquote : c ≠ '"') (hline : c ≠ '\n') (hescape : c ≠ '\\')
    (rest : IsBody cs s) : IsBody (c :: cs) (c :: s)
  | escape {e c : Char} {cs s : List Char} (known : unescape e = some c) (rest : IsBody cs s) :
    IsBody ('\\' :: e :: cs) (c :: s)
  | badEscape {e : Char} {cs s : List Char} (unknown : unescape e = none) (rest : IsBody cs s) :
    IsBody ('\\' :: e :: cs) s

/-- What the characters of a piece of a given kind look like. -/
inductive Spells : Kind → List Char → Prop
  | blank {c : Char} {cs : List Char} (h : ∀ x ∈ c :: cs, isBlank x = true) :
    Spells .blank (c :: cs)
  | comment {cs : List Char} (h : '\n' ∉ cs) : Spells .comment ('/' :: '/' :: cs)
  | junk {c : Char} (h : IsStray c) : Spells .junk [c]
  | word {s : String} (h : IsName s) : Spells (.lexeme (Token.ofWord s) .int s) s.toList
  | number {k : LitKind} {cs : List Char} (h : IsNumber k cs) :
    Spells (.lexeme .literal k (String.ofList cs)) cs
  /-- The mark of a hexadecimal number without digits. -/
  | bareHex {x : Char} (h : x = 'x' ∨ x = 'X') :
    Spells (.lexeme .literal .int (String.ofList ['0', x])) ['0', x]
  /-- A number whose exponent has no digits. -/
  | bareExponent {d m : Char} {ds f sign : List Char} (h : ∀ c ∈ d :: ds, isDigit c = true)
    (hf : IsFraction f) (hm : m = 'e' ∨ m = 'E') (hsign : sign = [] ∨ sign = ['+'] ∨ sign = ['-']) :
    Spells (.lexeme .literal .float (String.ofList (d :: ds ++ (f ++ m :: sign))))
      (d :: ds ++ (f ++ m :: sign))
  | string {cs s : List Char} (h : IsBody cs s) :
    Spells (.lexeme .literal .string (String.ofList s)) ('"' :: cs)
  | sign {t : Token} (h : t.isSign = true) : Spells (.lexeme t .int t.text) t.text.toList
  /-- Half of a logical connective. -/
  | half {c : Char} {t : Token} (h : c = '&' ∧ t = .andAnd ∨ c = '|' ∧ t = .orOr) :
    Spells (.lexeme t .int t.text) [c]

theorem Spells.ne_nil {k : Kind} {cs : List Char} (h : Spells k cs) : cs ≠ [] := by
  cases h with
  | word h => exact h.ne_nil
  | number h => exact h.ne_nil
  | @sign t h => cases t <;> first | exact absurd h (by decide) | exact List.cons_ne_nil _ _
  | _ => simp

/-- The piece `p` covers the first of the glyphs `gs`, and they look as they should. -/
def Covers (p : Piece) (gs : List Glyph) : Prop :=
  ∃ taken more, gs = taken ++ more ∧ taken.length = p.size ∧ Spells p.kind (taken.map (·.char))

namespace Covers

variable {p : Piece} {gs : List Glyph}

theorem of_take (hle : p.size ≤ gs.length) (h : Spells p.kind ((gs.take p.size).map (·.char))) :
    Covers p gs :=
  ⟨gs.take p.size, gs.drop p.size, (List.take_append_drop ..).symm,
    (List.length_take ..).trans (Nat.min_eq_left hle), h⟩

theorem size_pos (h : Covers p gs) : 0 < p.size := by
  obtain ⟨taken, more, _, hsize, hspells⟩ := h
  rw [← hsize, List.length_pos_iff]
  rintro rfl
  exact hspells.ne_nil rfl

theorem size_le (h : Covers p gs) : p.size ≤ gs.length := by
  obtain ⟨taken, more, rfl, hsize, _⟩ := h
  simp [← hsize]

theorem spells (h : Covers p gs) : Spells p.kind ((gs.take p.size).map (·.char)) := by
  obtain ⟨taken, more, rfl, hsize, hspells⟩ := h
  rwa [← hsize, List.take_left]

end Covers

/-! Blanks, comments and words -/

section

variable {eof : Pos} {g : Glyph} {gs rest : List Glyph}

theorem prefix_run (p : Char → Bool) (gs : List Glyph) : run p gs <+: gs := List.takeWhile_prefix _

/-- A first character and those of a class behind it. -/
theorem covers_run {p : Piece} {q : Char → Bool} (hsize : p.size = 1 + (run q rest).length)
    (h : Spells p.kind (g.char :: (run q rest).map (·.char))) : Covers p (g :: rest) := by
  obtain ⟨more, hmore⟩ := prefix_run q rest
  refine ⟨g :: run q rest, more, by rw [List.cons_append, hmore], ?_, h⟩
  rw [hsize, List.length_cons, Nat.add_comm]

theorem covers_blank (h : isBlank g.char = true) :
    Covers ⟨.blank, 1 + (run isBlank rest).length, [], eof⟩ (g :: rest) :=
  covers_run rfl (.blank (List.forall_mem_cons.2 ⟨h, mem_run⟩))

theorem covers_word (h : isLetter g.char = true) :
    let cs := g :: run (fun c => isLetter c || isDigit c) rest
    Covers ⟨.lexeme (Token.ofWord (spelling cs)) .int (spelling cs), cs.length, [], eof⟩
      (g :: rest) := by
  refine covers_run (q := fun c => isLetter c || isDigit c) (Nat.add_comm ..) ?_
  have hspells := Spells.word (isName_of_letter rest h)
  rwa [spelling, String.toList_ofList] at hspells

/-! Numbers -/

theorem prefix_fraction (gs : List Glyph) : fraction gs <+: gs := by
  unfold fraction
  split
  · split
    · exact List.cons_prefix_cons.2 ⟨rfl, List.cons_prefix_cons.2 ⟨rfl, prefix_run ..⟩⟩
    · exact List.nil_prefix
  · exact List.nil_prefix

theorem prefix_sign (gs : List Glyph) : sign gs <+: gs := by
  unfold sign
  split
  · split
    · exact List.cons_prefix_cons.2 ⟨rfl, List.nil_prefix⟩
    · exact List.nil_prefix
  · exact List.nil_prefix

/-- What stands behind one part of a text goes on with another. -/
theorem prefix_append {α : Type} {a b l : List α} (h : a <+: l) (h' : b <+: l.drop a.length) :
    a ++ b <+: l := by
  obtain ⟨more, rfl⟩ := h
  rw [List.drop_left] at h'
  exact (List.prefix_append_right_inj a).2 h'

theorem prefix_exponent (eof : Pos) (gs : List Glyph) : (exponent eof gs).1 <+: gs := by
  unfold exponent
  split
  · split
    · exact List.cons_prefix_cons.2 ⟨rfl, prefix_append (prefix_sign _) (prefix_run ..)⟩
    · exact List.nil_prefix
  · exact List.nil_prefix

/-- The exponent of a number has digits, or it is a mark and a sign. -/
theorem exponent_cases (eof : Pos) (gs : List Glyph) :
    IsExponent ((exponent eof gs).1.map (·.char)) ∨
      ∃ m s, (m = 'e' ∨ m = 'E') ∧ (s = [] ∨ s = ['+'] ∨ s = ['-']) ∧
        (exponent eof gs).1.map (·.char) = m :: s := by
  by_cases hnone : (exponent eof gs).2 = []
  · exact Or.inl (isExponent_exponent hnone)
  right
  cases gs with
  | nil => exact absurd rfl hnone
  | cons mark gs =>
      simp only [exponent] at hnone ⊢
      split at hnone
      case isFalse => exact absurd rfl hnone
      next hmark =>
        rw [if_pos hmark]
        simp only [Bool.or_eq_true, decide_eq_true_eq] at hmark
        have hdigits : run isDigit (gs.drop (sign gs).length) = [] := by
          cases hrun : run isDigit (gs.drop (sign gs).length) with
          | nil => rfl
          | cons d ds => simp [hrun] at hnone
        refine ⟨mark.char, (sign gs).map (·.char), hmark, sign_cases gs, ?_⟩
        simp [hdigits]

/-- A piece that covers a start of the text. -/
theorem covers_start {p : Piece} (taken : List Glyph) (h : taken <+: gs)
    (hsize : taken.length = p.size) (hspells : Spells p.kind (taken.map (·.char))) :
    Covers p gs := by
  obtain ⟨more, rfl⟩ := h
  exact ⟨taken, more, rfl, hsize, hspells⟩

theorem covers_number (hg : isDigit g.char = true) :
    Covers (number eof (g :: gs)) (g :: gs) := by
  have hwhole : run isDigit (g :: gs) = g :: run isDigit gs := by simp [run, hg]
  have hdigits : ∀ c ∈ g.char :: (run isDigit gs).map (·.char), isDigit c = true :=
    List.forall_mem_cons.2 ⟨hg, mem_run⟩
  generalize hfrac : fraction ((g :: gs).drop (run isDigit (g :: gs)).length) = frac
  generalize hbehind : ((g :: gs).drop (run isDigit (g :: gs)).length).drop frac.length = behind
  generalize hexp : exponent eof behind = exp
  have hnumber : number eof (g :: gs) =
      ⟨.lexeme .literal (if frac.isEmpty && exp.1.isEmpty then LitKind.int else .float)
        (spelling (run isDigit (g :: gs) ++ frac ++ exp.1)),
        (run isDigit (g :: gs) ++ frac ++ exp.1).length, exp.2, eof⟩ := by
    simp only [number, hfrac, hbehind, hexp]
  have hfraction : IsFraction (frac.map (·.char)) := hfrac ▸ isFraction_fraction _
  have hprefix : run isDigit (g :: gs) ++ frac ++ exp.1 <+: g :: gs := by
    rw [List.append_assoc]
    refine prefix_append (prefix_run ..) (prefix_append (hfrac ▸ prefix_fraction _) ?_)
    rw [hbehind, ← hexp]
    exact prefix_exponent eof behind
  rw [hnumber]
  refine covers_start _ hprefix rfl ?_
  rcases exponent_cases eof behind with hexponent | ⟨m, s, hm, hs, hchars⟩
  · rw [hexp] at hexponent
    have hspells := Spells.number (IsNumber.decimal hdigits hfraction hexponent)
    simpa [spelling, hwhole] using hspells
  · rw [hexp] at hchars
    have hne : exp.1.isEmpty = false := by
      cases hnil : exp.1 with
      | nil => simp [hnil] at hchars
      | cons => rfl
    have hspells := Spells.bareExponent hdigits hfraction hm hs
    simpa [spelling, hwhole, hne, hchars] using hspells

theorem covers_hexNumber {x : Glyph} (hg : g.char = '0') (hx : x.char = 'x' ∨ x.char = 'X') :
    Covers (hexNumber eof g x gs) (g :: x :: gs) := by
  have hdigits : ∀ c ∈ (run isHexDigit gs).map (·.char), isHexDigit c = true := mem_run
  refine covers_start (g :: x :: run isHexDigit gs)
    (List.cons_prefix_cons.2 ⟨rfl, List.cons_prefix_cons.2 ⟨rfl, prefix_run ..⟩⟩) rfl ?_
  cases hrun : run isHexDigit gs with
  | nil => simpa [hexNumber, spelling, hg, hrun] using Spells.bareHex hx
  | cons d ds =>
      rw [hrun, List.map_cons] at hdigits
      simpa [hexNumber, spelling, hg, hrun] using Spells.number (IsNumber.hex hx hdigits)

/-! Strings -/

/-- The body of a literal covers the start of what follows its quote. -/
theorem stringBody_covers (eof : Pos) (gs : List Glyph) :
    (stringBody eof gs).2.1 ≤ gs.length ∧
      IsBody ((gs.take (stringBody eof gs).2.1).map (·.char)) (stringBody eof gs).1 := by
  fun_induction stringBody eof gs with
  | case1 => exact ⟨Nat.le_refl _, .unterminated⟩
  | case2 g rest hquote => exact ⟨by simp, by simpa [hquote] using IsBody.closed⟩
  | case3 => exact ⟨Nat.zero_le _, .unterminated⟩
  | case4 g _ _ hescape => exact ⟨by simp, by simpa [hescape] using IsBody.openEscape⟩
  | case5 g hquote hline hescape e rest chars size faults last hrest c hknown ih =>
      rw [hrest] at ih
      refine ⟨by simpa using ih.1, ?_⟩
      simpa [hescape] using IsBody.escape hknown ih.2
  | case6 g hquote hline hescape e rest chars size faults last hrest hunknown ih =>
      rw [hrest] at ih
      refine ⟨by simpa using ih.1, ?_⟩
      simpa [hescape] using IsBody.badEscape hunknown ih.2
  | case7 g rest hquote hline hescape chars size faults last hrest ih =>
      rw [hrest] at ih
      refine ⟨by simpa using ih.1, ?_⟩
      simpa using IsBody.plain hquote hline hescape ih.2

theorem covers_string (hg : g.char = '"') : Covers (string eof rest) (g :: rest) := by
  obtain ⟨hle, hbody⟩ := stringBody_covers eof rest
  refine .of_take (by simpa [string] using hle) ?_
  simpa [string, hg] using Spells.string hbody

/-! Signs -/

theorem text_of_double {c d : Char} {t : Token} (h : double c d = some t) :
    t.text.toList = [c, d] := by
  unfold double at h
  split at h <;> cases h <;> rfl

theorem text_of_single {c : Char} {t : Token} (h : single c = some t) : t.text.toList = [c] := by
  unfold single at h
  split at h <;> cases h <;> rfl

/-- What starts with a sign is told by it and the character behind it. -/
theorem symbol_cases {motive : Piece → Prop} (eof : Pos) (g : Glyph) (rest : List Glyph)
    (comment : ∀ x more, rest = x :: more → g.char = '/' → x.char = '/' →
      motive ⟨.comment, 1 + (run (· ≠ '\n') rest).length, [], eof⟩)
    (pair : ∀ x more t, rest = x :: more → double g.char x.char = some t →
      motive (operator eof t 2 []))
    (ampersand : g.char = '&' →
      motive (operator eof .andAnd 1 [⟨Glyph.headPos eof rest, .loneAmpersand⟩]))
    (bar : g.char = '|' → motive (operator eof .orOr 1 [⟨Glyph.headPos eof rest, .loneBar⟩]))
    (one : ∀ t, Scan.single g.char = some t → motive (operator eof t 1 []))
    (stray : g.char ≠ '&' → g.char ≠ '|' → Scan.single g.char = none →
      motive ⟨.junk, 1, [⟨g.pos, .unexpected g.char⟩], eof⟩) : motive (symbol eof g rest) := by
  unfold symbol
  dsimp only
  split
  next hcomment =>
    simp only [Bool.and_eq_true, decide_eq_true_eq] at hcomment
    cases rest with
    | nil => simp at hcomment
    | cons x more => exact comment x more rfl hcomment.1 (by simpa using hcomment.2)
  split
  next t hdouble =>
    obtain ⟨d, hd, hdouble⟩ := Option.bind_eq_some_iff.1 hdouble
    cases rest with
    | nil => cases hd
    | cons x more =>
        obtain rfl : x.char = d := by simpa using hd
        exact pair x more t rfl hdouble
  split
  next hamp => exact ampersand hamp
  next hamp =>
    split
    next hbar => exact bar hbar
    next hbar =>
      split
      next t hsingle => exact one t hsingle
      next hsingle => exact stray hamp hbar hsingle

theorem covers_symbol (hblank : isBlank g.char = false) (hletter : isLetter g.char = false)
    (hdigit : isDigit g.char = false) (hquote : g.char ≠ '"') :
    Covers (symbol eof g rest) (g :: rest) := by
  refine symbol_cases (motive := (Covers · (g :: rest))) eof g rest
    ?comment ?pair ?ampersand ?bar ?one ?stray
  case comment =>
    rintro x more rfl hg hx
    refine covers_run (q := fun c => c ≠ '\n') rfl ?_
    have hrun : '\n' ∉ (run (fun c => c ≠ '\n') more).map (·.char) :=
      fun hmem => by simpa using mem_run _ hmem
    simpa [run, hg, hx] using Spells.comment hrun
  case pair =>
    rintro x more t rfl hdouble
    refine .of_take (by simp [operator]) ?_
    have hspells := Spells.sign (isSign_double hdouble)
    rwa [text_of_double hdouble] at hspells
  case ampersand =>
    intro hamp
    exact .of_take (by simp [operator]) (Spells.half (Or.inl ⟨hamp, rfl⟩))
  case bar =>
    intro hbar
    exact .of_take (by simp [operator]) (Spells.half (Or.inr ⟨hbar, rfl⟩))
  case one =>
    intro t hsingle
    refine .of_take (by simp [operator]) ?_
    have hspells := Spells.sign (isSign_single hsingle)
    rwa [text_of_single hsingle] at hspells
  case stray =>
    intro hamp hbar hsingle
    exact .of_take (by simp)
      (Spells.junk ⟨hblank, hletter, hdigit, hquote, hamp, hbar, hsingle⟩)

/-- What starts with a character is told by the character and, for a hexadecimal number, the
one behind it. -/
theorem first_cases {motive : Piece → Prop} (eof : Pos) (g : Glyph) (rest : List Glyph)
    (blank : isBlank g.char = true → motive ⟨.blank, 1 + (run isBlank rest).length, [], eof⟩)
    (word : isLetter g.char = true →
      let cs := g :: run (fun c => isLetter c || isDigit c) rest
      motive ⟨.lexeme (Token.ofWord (spelling cs)) .int (spelling cs), cs.length, [], eof⟩)
    (hex : ∀ x more, rest = x :: more → g.char = '0' → x.char = 'x' ∨ x.char = 'X' →
      motive (hexNumber eof g x more))
    (decimal : isDigit g.char = true → motive (number eof (g :: rest)))
    (text : g.char = '"' → motive (string eof rest))
    (sign : isBlank g.char = false → isLetter g.char = false → isDigit g.char = false →
      g.char ≠ '"' → motive (symbol eof g rest)) : motive (first eof g rest) := by
  unfold first
  split
  next hblank => exact blank hblank
  next hblank =>
  split
  next hletter => exact word hletter
  next hletter =>
  split
  next hdigit =>
    split
    next x more =>
      split
      next hmark =>
        simp only [Bool.and_eq_true, Bool.or_eq_true, decide_eq_true_eq] at hmark
        exact hex x more rfl hmark.1 hmark.2
      next => exact decimal hdigit
    next => exact decimal hdigit
  next hdigit =>
    split
    next hquote => exact text hquote
    next hquote =>
      exact sign (eq_false_of_ne_true hblank) (eq_false_of_ne_true hletter)
        (eq_false_of_ne_true hdigit) hquote

/-- Every piece looks as its kind says. -/
theorem first_covers (eof : Pos) (g : Glyph) (rest : List Glyph) :
    Covers (first eof g rest) (g :: rest) := by
  refine first_cases (motive := (Covers · (g :: rest))) eof g rest covers_blank covers_word ?_
    covers_number covers_string covers_symbol
  rintro x more rfl hzero hx
  exact covers_hexNumber hzero hx

end

end ClassLang.Scan

import Mathlib
import ClassLang.Proofs.Token.Spelling
import ClassLang.Proofs.Tree.Encoded

/-!
Tokens written and read again. The tokens of a text without a fault, written one after the
other with a blank or a line end between them, are the tokens of what is written.
-/

namespace ClassLang

namespace Scan

/-! Reading a text piece by piece -/

theorem noticed_eq_nil {p : Piece} {gs : List Glyph} (hp : p.faults = [])
    (h : ∀ g ∈ gs, g.wellFormed = true) : noticed p gs = [] := by
  rw [noticed_of_wellFormed h, hp]

theorem faults_of_noticed {p : Piece} {gs : List Glyph} (h : noticed p gs = []) :
    p.faults = [] := by
  refine List.eq_nil_iff_forall_not_mem.2 fun e he => ?_
  have hmem : e ∈ noticed p gs := List.mem_merge.2 (Or.inr he)
  rw [h] at hmem
  cases hmem

theorem lexemesFrom_drop (eof : Pos) (pending : List LexError) (gs : List Glyph) (n : Nat) :
    lexemesFrom eof pending gs n = lexemesFrom eof pending (gs.drop n) 0 := by
  induction gs generalizing n with
  | nil => simp [lexemesFrom]
  | cons g gs ih =>
      cases n with
      | zero => rfl
      | succ n => exact ih n

/-- The characters `cs` in front of `rest` are read, without a fault, as tokens that say
`contents`. -/
def Scans (cs : List Char) (contents : List (Token × LitKind × String)) (rest : List Char) :
    Prop :=
  ∀ eof gs gs', Shows gs cs → Shows gs' rest → ∃ ls,
    lexemesFrom eof [] (gs ++ gs') 0 = ls ++ lexemesFrom eof [] gs' 0 ∧
      ls.map Lexeme.content = contents ∧ ∀ l ∈ ls, l.faults = []

namespace Scans

variable {cs ds rest : List Char} {xs ys : List (Token × LitKind × String)}

theorem nil : Scans [] [] rest := by
  intro eof gs gs' hgs _
  obtain rfl := hgs.eq_nil
  exact ⟨[], rfl, rfl, by simp⟩

theorem append (h : Scans cs xs (ds ++ rest)) (h' : Scans ds ys rest) :
    Scans (cs ++ ds) (xs ++ ys) rest := by
  intro eof gs gs' hgs hgs'
  obtain ⟨gs₁, gs₂, rfl, hgs₁, hgs₂⟩ := hgs.split
  obtain ⟨ls, hls, hxs, hnone⟩ := h eof gs₁ (gs₂ ++ gs') hgs₁ (hgs₂.append hgs')
  obtain ⟨ls', hls', hys, hnone'⟩ := h' eof gs₂ gs' hgs₂ hgs'
  refine ⟨ls ++ ls', ?_, by rw [List.map_append, hxs, hys],
    fun l hl => (List.mem_append.1 hl).elim (hnone l) (hnone' l)⟩
  rw [List.append_assoc, hls, hls', List.append_assoc]

/-- One token. -/
theorem token {x : Token × LitKind × String} (hcs : cs ≠ []) (h : ReadsAs cs x rest) :
    Scans cs [x] rest := by
  intro eof gs gs' hgs hgs'
  obtain ⟨c, cs, rfl⟩ := List.exists_cons_of_ne_nil hcs
  obtain ⟨g, gs, rfl, _, _⟩ := hgs.exists_cons
  have hfirst := h eof g gs gs' hgs hgs'
  have hnoticed : noticed (first eof g (gs ++ gs')) (g :: (gs ++ gs')) = [] :=
    noticed_eq_nil (by rw [hfirst]) (hgs.append hgs').sound
  refine ⟨[⟨x.1, x.2.2, x.2.1, g.pos, []⟩], ?_, rfl, by simp⟩
  rw [List.cons_append, lexemesFrom, hnoticed, hfirst]
  simp [lexemesFrom_drop eof [] (gs ++ gs')]

/-- Blanks in front of a text do not matter. -/
theorem lexemesFrom_blank {eof : Pos} {g : Glyph} {gs : List Glyph}
    (hg : isBlank g.char = true) (hsound : ∀ x ∈ g :: gs, x.wellFormed = true) :
    lexemesFrom eof [] (g :: gs) 0 =
      lexemesFrom eof [] (gs.drop (run isBlank gs).length) 0 := by
  have hfirst : first eof g gs = { kind := .blank, size := 1 + (run isBlank gs).length, eof } := by
    simp [first, hg]
  have hnoticed : noticed (first eof g gs) (g :: gs) = [] :=
    noticed_eq_nil (by rw [hfirst]) hsound
  rw [lexemesFrom, hnoticed, hfirst]
  simp [lexemesFrom_drop eof [] gs]

/-- One blank. -/
theorem blank {c : Char} (hc : isBlank c = true) : Scans [c] [] rest := by
  intro eof gs gs' hgs hgs'
  have hsound := (hgs.append hgs').sound
  obtain ⟨g, gs, rfl, rfl, hnil⟩ := hgs.exists_cons
  obtain rfl := hnil.eq_nil
  refine ⟨[], (lexemesFrom_blank hc hsound).trans ?_, rfl, by simp⟩
  change lexemesFrom eof [] (gs'.drop (run isBlank gs').length) 0 = lexemesFrom eof [] gs' 0
  cases gs' with
  | nil => rfl
  | cons x gs' =>
      -- the blanks that follow belong to the same piece
      cases hx : isBlank x.char with
      | true =>
          rw [lexemesFrom_blank hx fun y hy => hsound y (List.mem_cons_of_mem _ hy)]
          simp [run, hx]
      | false => simp [run, hx]

/-- A text that is read without a fault. -/
theorem lexemes {text : String} (h : Scans text.toList xs []) (file : String) :
    (lexemes file (Utf8.encode text)).map Lexeme.content = xs ++ [(.eof, .int, "")] ∧
      ∀ l ∈ lexemes file (Utf8.encode text), l.faults = [] := by
  obtain ⟨ls, hls, hxs, hnone⟩ := h (Glyph.endOf (Pos.start file)
    (text.toList.map fun c => ⟨c, true⟩)) _ [] (shows_place (Pos.start file) text.toList) .nil
  rw [List.append_nil] at hls
  have hlexemes : ClassLang.lexemes file (Utf8.encode text) = ls ++ lexemesFrom _ [] [] 0 :=
    (lexemes_encode file text).trans ((lexemesOf_eq file text.toList).trans hls)
  rw [hlexemes, lexemesFrom]
  refine ⟨by rw [List.map_append, hxs]; rfl, fun l hl => ?_⟩
  rcases List.mem_append.1 hl with hl | hl
  · exact hnone l hl
  · rw [List.mem_singleton.1 hl]

end Scans

/-- What a lexeme of a text without a fault can say. -/
theorem legible_of_mem {gs : List Glyph} {eof : Pos} {pending : List LexError} {skip : Nat}
    (hfaults : ∀ l ∈ lexemesFrom eof pending gs skip, l.faults = []) :
    ∀ l ∈ lexemesFrom eof pending gs skip, l.token ≠ .eof → Legible l.token l.kind l.text := by
  induction gs generalizing eof pending skip with
  | nil =>
      intro l hl heof
      rw [lexemesFrom, List.mem_singleton] at hl
      exact absurd (congrArg Lexeme.token hl) heof
  | cons g rest ih =>
      cases skip with
      | succ skip => exact ih hfaults
      | zero =>
          simp only [lexemesFrom] at hfaults ⊢
          split at hfaults
          next t k s hkind =>
            have hhead := hfaults _ List.mem_cons_self
            have hnone := faults_of_noticed (List.append_eq_nil_iff.1 hhead).2
            exact List.forall_mem_cons.2 ⟨fun _ => legible_first hkind hnone,
              ih fun l hl => hfaults l (List.mem_cons_of_mem _ hl)⟩
          next => exact ih hfaults

end Scan

/-- The texts `rs` one after the other, with a blank or a line end between two of them. -/
inductive Separated : List String → List Char → Prop
  | none : Separated [] []
  | last (r : String) : Separated [r] r.toList
  | more {r : String} {rs : List String} {c : Char} {cs : List Char} (hc : c = ' ' ∨ c = '\n')
    (hrs : rs ≠ []) (h : Separated rs cs) : Separated (r :: rs) (r.toList ++ c :: cs)

namespace Scan

theorem ends_nil : EndsWord [] ∧ EndsSign [] :=
  ⟨⟨stops_nil, fun _ _ h => by cases h⟩, stops_nil⟩

theorem ends_separator {c : Char} (cs : List Char) (hc : c = ' ' ∨ c = '\n') :
    EndsWord (c :: cs) ∧ EndsSign (c :: cs) := by
  rcases hc with rfl | rfl
  all_goals exact ⟨⟨stops_cons.2 rfl, fun _ _ h => by cases h⟩, stops_cons.2 rfl⟩

theorem scans_separated {ls : List Lexeme} {cs : List Char}
    (hls : ∀ l ∈ ls, Legible l.token l.kind l.text)
    (h : Separated (ls.map Lexeme.rendering) cs) : Scans cs (ls.map Lexeme.content) [] := by
  induction ls generalizing cs with
  | nil =>
      cases h
      exact .nil
  | cons l ls ih =>
      obtain ⟨hl, hls⟩ := List.forall_mem_cons.1 hls
      generalize hrs : ls.map Lexeme.rendering = rs at ih
      rw [List.map_cons, hrs] at h
      cases h with
      | last =>
          obtain rfl := List.map_eq_nil_iff.1 hrs
          obtain ⟨hne, hreads⟩ := hl.readsAs l.pos l.faults ends_nil.1 ends_nil.2
          exact .token hne hreads
      | @more _ _ c cs hc _ h =>
          have hends := ends_separator (cs ++ []) hc
          obtain ⟨hne, hreads⟩ := hl.readsAs l.pos l.faults hends.1 hends.2
          have hblank : isBlank c = true := by rcases hc with rfl | rfl <;> rfl
          have hrest : Scans (c :: cs) (ls.map Lexeme.content) [] :=
            .append (.blank hblank) (ih hls h)
          exact .append (.token hne hreads) hrest

theorem content_of_eof {gs : List Glyph} {eof : Pos} {pending : List LexError} {skip : Nat}
    {l : Lexeme} (hl : l ∈ lexemesFrom eof pending gs skip) (heof : l.token = .eof) :
    l.content = (.eof, .int, "") := by
  induction gs generalizing eof pending skip with
  | nil =>
      rw [lexemesFrom, List.mem_singleton] at hl
      rw [hl]
      rfl
  | cons g rest ih =>
      cases skip with
      | succ skip => exact ih hl
      | zero =>
          simp only [lexemesFrom] at hl
          split at hl
          next t k s hkind =>
            rcases List.mem_cons.1 hl with rfl | hl
            · exact absurd heof (first_ne_eof hkind)
            · exact ih hl
          next => exact ih hl

end Scan

/-- Tokens read without a fault, each written as it is rendered and with single blanks or line
ends between them, are read back without a fault: the same tokens, with the same texts and
kinds of literal. Any text in quotes is read as one string with this text. -/
theorem renderings_read_back {file : String} {bytes : List UInt8}
    (hscan : ∀ l ∈ lexemes file bytes, l.faults = []) :
    (∀ file' text, Separated
        (((lexemes file bytes).filter (·.token ≠ .eof)).map Lexeme.rendering) text.toList →
      (lexemes file' (Utf8.encode text)).map Lexeme.content =
          (lexemes file bytes).map Lexeme.content ∧
        ∀ l ∈ lexemes file' (Utf8.encode text), l.faults = []) ∧
    ∀ file' s,
      (lexemes file' (Utf8.encode (CommandLine.literalText s))).map Lexeme.content =
          [(.literal, .string, s), (.eof, .int, "")] ∧
        ∀ l ∈ lexemes file' (Utf8.encode (CommandLine.literalText s)), l.faults = [] := by
  obtain ⟨ws, e, hls, he, hws, _⟩ := exists_lexemes file bytes
  have hkeep : (lexemes file bytes).filter (·.token ≠ .eof) = ws := by
    have hfilter : ws.filter (·.token ≠ .eof) = ws :=
      List.filter_eq_self.2 fun l hl => by simpa using hws l hl
    rw [hls, List.filter_append, hfilter]
    simp [he]
  have hmem : ∀ l ∈ ws, l ∈ lexemes file bytes := fun l hl => by simp [hls, hl]
  have hlegible : ∀ l ∈ ws, Scan.Legible l.token l.kind l.text :=
    fun l hl => Scan.legible_of_mem hscan l (hmem l hl) (hws l hl)
  have hend : e.content = (.eof, .int, "") :=
    Scan.content_of_eof (show e ∈ lexemes file bytes by simp [hls]) he
  refine ⟨fun file' text htext => ?_, fun file' s => ?_⟩
  · rw [hkeep] at htext
    have hread := (Scan.scans_separated hlegible htext).lexemes file'
    rw [hls, List.map_append, List.map_singleton, hend]
    exact hread
  · have hstring : Scan.Scans (CommandLine.literalText s).toList [(.literal, .string, s)] [] :=
      .token (by simp [CommandLine.literalText]) (Scan.readsAs_string s)
    exact hstring.lexemes file'

/-- A text with a word, a sign of two characters, two numbers, a string with an escape, and a
comment. -/
def mixedText : String := "n<=0x1F+1.5e-3;\"a\\n\"//end"

/-- The tokens of `mixedText`, apart. -/
def mixedTokens : String := "n <= 0x1F +\n1.5e-3 ; \"a\\n\""

theorem mixedText_read_back :
    (∀ l ∈ lexemes "t" (Utf8.encode mixedText), l.faults = []) ∧
    Separated (((lexemes "t" (Utf8.encode mixedText)).filter (·.token ≠ .eof)).map
      Lexeme.rendering) mixedTokens.toList ∧
    (lexemes "u" (Utf8.encode mixedTokens)).map Lexeme.content =
      (lexemes "t" (Utf8.encode mixedText)).map Lexeme.content ∧
    (lexemes "u" (Utf8.encode (CommandLine.literalText "\"\t"))).map Lexeme.content =
      [(.literal, .string, "\"\t"), (.eof, .int, "")] := by
  have hread : (fun ls : List Lexeme => (ls.all fun l => l.faults.isEmpty,
      (ls.filter (·.token ≠ .eof)).map Lexeme.rendering)) (lexemesOf "t" mixedText.toList) =
      (true, ["n", "<=", "0x1F", "+", "1.5e-3", ";", "\"a\\n\""]) := by
    rw [mixedText, String.toList_ofList]
    decide +kernel
  obtain ⟨hfaults, hrenderings⟩ := Prod.mk.inj hread
  rw [← lexemes_encode] at hfaults hrenderings
  have hscan : ∀ l ∈ lexemes "t" (Utf8.encode mixedText), l.faults = [] := fun l hl => by
    simpa using List.all_eq_true.1 hfaults l hl
  have htokens : mixedTokens.toList = "n".toList ++ ' ' :: ("<=".toList ++ ' ' ::
      ("0x1F".toList ++ ' ' :: ("+".toList ++ '\n' :: ("1.5e-3".toList ++ ' ' ::
        (";".toList ++ ' ' :: "\"a\\n\"".toList))))) := rfl
  have hseparated : Separated (((lexemes "t" (Utf8.encode mixedText)).filter
      (·.token ≠ .eof)).map Lexeme.rendering) mixedTokens.toList := by
    rw [Utf8.encode, hrenderings, htokens]
    have hblank : ' ' = ' ' ∨ ' ' = '\n' := Or.inl rfl
    exact .more hblank (by simp) (.more hblank (by simp) (.more hblank (by simp)
      (.more (Or.inr rfl) (by simp) (.more hblank (by simp) (.more hblank (by simp)
        (.last _))))))
  obtain ⟨hback, hstring⟩ := renderings_read_back hscan
  exact ⟨hscan, hseparated, (hback "u" mixedTokens hseparated).1, (hstring "u" _).1⟩

end ClassLang

import ClassLang.Token.Scan

/-!
The places of lexemes. Every lexeme starts at a glyph of its own, and no two glyphs
have the same place.
-/

namespace ClassLang

namespace Pos

/-- `p` comes before `q` in one text. -/
def Before (p q : Pos) : Prop := p.line < q.line ∨ (p.line = q.line ∧ p.col < q.col)

theorem Before.trans {p q r : Pos} (h : p.Before q) (h' : q.Before r) : p.Before r := by
  unfold Before at *
  omega

theorem Before.ne {p q : Pos} (h : p.Before q) : p ≠ q := by
  rintro rfl
  unfold Before at h
  omega

theorem before_after (p : Pos) (c : Char) : p.Before (p.after c) := by
  unfold after Before
  split
  · exact Or.inl (Nat.lt_succ_self _)
  · exact Or.inr ⟨rfl, Nat.lt_succ_self _⟩

end Pos

namespace Glyph

theorem before_of_mem_place {rs : List Utf8.Rune} {p q : Pos} {g : Glyph} (hpq : p.Before q)
    (hg : g ∈ place q rs) : p.Before g.pos := by
  induction rs generalizing q with
  | nil => simp [place] at hg
  | cons r rest ih =>
      rcases List.mem_cons.1 hg with rfl | hg
      · exact hpq
      · exact ih (hpq.trans (Pos.before_after q r.char)) hg

theorem place_nodup (rs : List Utf8.Rune) (p : Pos) : ((place p rs).map (·.pos)).Nodup := by
  induction rs generalizing p with
  | nil => simp [place]
  | cons r rest ih =>
      simp only [place, List.map_cons, List.nodup_cons]
      refine ⟨fun hmem => ?_, ih _⟩
      obtain ⟨g, hg, heq⟩ := List.mem_map.1 hmem
      exact (before_of_mem_place (Pos.before_after p r.char) hg).ne heq.symm

theorem before_endOf_of_mem_place {rs : List Utf8.Rune} {p : Pos} {g : Glyph}
    (hg : g ∈ place p rs) : g.pos.Before (endOf p rs) := by
  have hend : ∀ (rs : List Utf8.Rune) (p q : Pos), p.Before q → p.Before (endOf q rs) := by
    intro rs
    induction rs with
    | nil => exact fun _ _ h => h
    | cons r rest ih => exact fun p q h => ih p _ (h.trans (Pos.before_after q r.char))
  induction rs generalizing p with
  | nil => simp [place] at hg
  | cons r rest ih =>
      rcases List.mem_cons.1 hg with rfl | hg
      · exact hend rest p _ (Pos.before_after p r.char)
      · exact ih hg

theorem length_place (rs : List Utf8.Rune) (p : Pos) : (place p rs).length = rs.length := by
  induction rs generalizing p with
  | nil => rfl
  | cons r rest ih => simp [place, ih]

end Glyph

theorem Utf8.length_piecesFrom_le (bytes : List UInt8) (skip : Nat) :
    (piecesFrom bytes skip).length ≤ bytes.length := by
  induction bytes generalizing skip with
  | nil => simp [piecesFrom]
  | cons lead rest ih =>
      cases skip with
      | succ skip => exact Nat.le_trans (ih skip) (Nat.le_succ _)
      | zero =>
          unfold piecesFrom
          split
          · exact Nat.succ_le_succ (ih _)
          · exact Nat.succ_le_succ (ih _)

/-- Where the lexemes of a list start, the end of the text left out. -/
def Lexeme.places (ls : List Lexeme) : List Pos :=
  (ls.filter fun l => l.token ≠ .eof).map (·.pos)

namespace Scan

/-! The end of the text -/

/-- `q` is no earlier than `p`, as far as the places before `p` can tell. -/
def NotBefore (p q : Pos) : Prop := ∀ x : Pos, x.Before p → x.Before q

/-- The end of a text is only ever moved on. -/
theorem stringBody_end (eof : Pos) (gs : List Glyph) :
    NotBefore eof (stringBody eof gs).2.2.2 := by
  have hpast : NotBefore eof { eof with col := eof.col + 1 } := by
    intro x h
    unfold Pos.Before at *
    dsimp only
    omega
  fun_induction stringBody eof gs with
  | case1 => exact fun _ h => h
  | case2 => exact fun _ h => h
  | case3 => exact fun _ h => h
  | case4 => exact hpast
  | case5 => simp_all
  | case6 => simp_all
  | case7 => simp_all

theorem first_end (eof : Pos) (g : Glyph) (rest : List Glyph) :
    NotBefore eof (first eof g rest).eof := by
  have hself : NotBefore eof eof := fun _ h => h
  unfold first symbol
  dsimp only
  repeat' split
  all_goals first
    | exact hself
    | exact stringBody_end eof rest

theorem ofWord_ne_eof (word : String) : Token.ofWord word ≠ .eof := by
  unfold Token.ofWord
  cases h : Token.keywords.find? (·.text == word) with
  | none => simp
  | some t =>
      have hmem := List.mem_of_find?_eq_some h
      rintro rfl
      simp [Token.keywords, Token.isKeyword] at hmem

theorem single_ne_eof {c : Char} {t : Token} (h : single c = some t) : t ≠ .eof := by
  rintro rfl
  unfold single at h
  split at h <;> cases h

theorem double_ne_eof {c d : Char} {t : Token} (h : double c d = some t) : t ≠ .eof := by
  rintro rfl
  unfold double at h
  split at h <;> cases h

theorem symbol_ne_eof {eof : Pos} {g : Glyph} {rest : List Glyph} {t : Token} {k : LitKind}
    {text : String} (h : (symbol eof g rest).kind = .lexeme t k text) : t ≠ .eof := by
  unfold symbol operator at h
  dsimp only at h
  split at h
  · cases h
  · split at h
    next token hdouble =>
      obtain ⟨d, _, hdouble⟩ := Option.bind_eq_some_iff.1 hdouble
      cases h
      exact double_ne_eof hdouble
    next =>
      split at h
      · cases h
        simp
      · split at h
        · cases h
          simp
        · split at h
          next hsingle =>
            cases h
            exact single_ne_eof hsingle
          next => cases h

/-- No piece of the text is its end. -/
theorem first_ne_eof {eof : Pos} {g : Glyph} {rest : List Glyph} {t : Token} {k : LitKind}
    {text : String} (h : (first eof g rest).kind = .lexeme t k text) : t ≠ .eof := by
  unfold first at h
  split at h
  · cases h
  · split at h
    · cases h
      exact ofWord_ne_eof _
    · have hnumber : ∀ gs, (number eof gs).kind = .lexeme t k text → t ≠ .eof := by
        intro gs h
        cases h
        simp
      split at h
      · split at h
        · split at h
          · cases h
            simp
          · exact hnumber _ h
        · exact hnumber _ h
      · split at h
        · cases h
          simp
        · exact symbol_ne_eof h

/-- The lexemes of a text start at glyphs of their own, but for the last, which is the end
of the text and comes behind all glyphs. -/
theorem exists_lexemesFrom (gs : List Glyph) (eof : Pos) (pending : List LexError) (skip : Nat) :
    ∃ (ws : List Lexeme) (e : Lexeme), lexemesFrom eof pending gs skip = ws ++ [e] ∧ e.token = .eof ∧
      NotBefore eof e.pos ∧ (∀ l ∈ ws, l.token ≠ .eof) ∧
      (ws.map (·.pos)).Sublist (gs.map (·.pos)) := by
  induction gs generalizing eof pending skip with
  | nil => exact ⟨[], _, rfl, rfl, fun _ h => h, by simp, by simp⟩
  | cons g rest ih =>
      cases skip with
      | succ skip =>
          obtain ⟨ws, e, hls, he, hend, hws, hsub⟩ := ih eof pending skip
          exact ⟨ws, e, hls, he, hend, hws, hsub.cons _⟩
      | zero =>
          have hnext := first_end eof g rest
          simp only [lexemesFrom]
          split
          next token kind text hkind =>
            obtain ⟨ws, e, hls, he, hend, hws, hsub⟩ :=
              ih (first eof g rest).eof [] ((first eof g rest).size - 1)
            rw [hls]
            refine ⟨_ :: ws, e, rfl, he, fun x hx => hend x (hnext x hx), fun l hl => ?_,
              hsub.cons_cons _⟩
            rcases List.mem_cons.1 hl with rfl | hl
            · exact first_ne_eof hkind
            · exact hws l hl
          next =>
            obtain ⟨ws, e, hls, he, hend, hws, hsub⟩ := ih (first eof g rest).eof
              (pending ++ noticed (first eof g rest) (g :: rest)) ((first eof g rest).size - 1)
            exact ⟨ws, e, hls, he, fun x hx => hend x (hnext x hx), hws, hsub.cons _⟩

end Scan

/-- The last lexeme of a text, and no other, is its end. All start at different places, and
there are no more of them than bytes, but for the last. -/
theorem exists_lexemes (file : String) (bytes : List UInt8) :
    ∃ (ws : List Lexeme) (e : Lexeme), lexemes file bytes = ws ++ [e] ∧ e.token = .eof ∧
      (∀ l ∈ ws, l.token ≠ .eof) ∧
      ((lexemes file bytes).map (·.pos)).Nodup ∧ ws.length ≤ bytes.length := by
  obtain ⟨ws, e, hls, he, hend, hws, hsub⟩ := Scan.exists_lexemesFrom
    (Glyph.place (Pos.start file) (Utf8.runes bytes))
    (Glyph.endOf (Pos.start file) (Utf8.runes bytes))
    (Scan.encodingFaults ((Glyph.place (Pos.start file) (Utf8.runes bytes)).take 1)) 0
  have hls : lexemes file bytes = ws ++ [e] := hls
  refine ⟨ws, e, hls, he, hws, ?_, ?_⟩
  · rw [hls, List.map_append, List.map_singleton, List.nodup_append]
    refine ⟨(Glyph.place_nodup _ _).sublist hsub, by simp, ?_⟩
    rintro p hp q hq rfl
    obtain ⟨g, hg, heq⟩ := List.mem_map.1 (hsub.subset hp)
    have hbefore := hend g.pos (Glyph.before_endOf_of_mem_place hg)
    rw [heq, List.mem_singleton.1 hq] at hbefore
    exact hbefore.ne rfl
  · have hlength := hsub.length_le
    rw [List.length_map, List.length_map, Glyph.length_place, Utf8.runes, List.length_map]
      at hlength
    exact Nat.le_trans hlength (Utf8.length_piecesFrom_le bytes 0)

/-- The lexemes of a text start at different places, and there are no more of them than
bytes. -/
theorem places_lexemes (file : String) (bytes : List UInt8) :
    (Lexeme.places (lexemes file bytes)).Nodup ∧
      (Lexeme.places (lexemes file bytes)).length ≤ bytes.length := by
  obtain ⟨ws, e, hls, he, hws, hnodup, hlength⟩ := exists_lexemes file bytes
  have hplaces : Lexeme.places (lexemes file bytes) = ws.map (·.pos) := by
    have hkeep : ws.filter (fun l => l.token ≠ .eof) = ws :=
      List.filter_eq_self.2 fun l hl => by simpa using hws l hl
    rw [Lexeme.places, hls, List.filter_append, hkeep]
    simp [he]
  rw [hplaces, List.length_map]
  refine ⟨hnodup.sublist ?_, hlength⟩
  rw [hls, List.map_append]
  exact List.sublist_append_left _ _

end ClassLang

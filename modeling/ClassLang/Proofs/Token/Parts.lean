import ClassLang.Proofs.Text.Utf8
import ClassLang.Proofs.Token.Places
import ClassLang.Proofs.Token.Rendering
import ClassLang.Proofs.Token.Shape

/-!
How scanning divides a text. The pieces of scanning are laid side by side over the pieces of
decoding, so that every byte belongs to one of them. From the place of a part one can tell the
characters before it, and from the parts the tokens and the faults that are noticed.
-/

namespace ClassLang

namespace Pos

variable {file : String} {before cs : List Char} {c : Char}

/-- The place behind the characters `before` of a text: one line for each line end, and one
column for each character behind the last of them. -/
def behind (file : String) (before : List Char) : Pos :=
  ⟨file, 1 + before.count '\n', 1 + (before.reverse.takeWhile (· ≠ '\n')).length⟩

theorem behind_nil (file : String) : behind file [] = start file := rfl

theorem behind_concat (file : String) (before : List Char) (c : Char) :
    behind file (before ++ [c]) = (behind file before).after c := by
  unfold behind after
  by_cases hc : c = '\n'
  · subst hc
    simp [Nat.add_assoc]
  · have hcount : List.count '\n' [c] = 0 := List.count_eq_zero.2 (by simpa using Ne.symm hc)
    simp [hc, hcount, Nat.add_comm]

/-- The place one column further. -/
def beyond (p : Pos) : Pos := { p with col := p.col + 1 }

theorem before_beyond (p : Pos) : p.Before p.beyond := Or.inr ⟨rfl, Nat.lt_succ_self _⟩

theorem before_behind (file : String) (before : List Char) (hcs : cs ≠ []) :
    (behind file before).Before (behind file (before ++ cs)) := by
  induction cs generalizing before with
  | nil => exact absurd rfl hcs
  | cons c cs ih =>
      rw [List.append_cons]
      have hfirst := behind_concat file before c ▸ before_after (behind file before) c
      cases cs with
      | nil => simpa using hfirst
      | cons d cs => exact hfirst.trans (ih (before ++ [c]) (List.cons_ne_nil _ _))

/-- Neither the line nor the column is greater than the number of characters by more than
one. -/
theorem behind_le (file : String) (before : List Char) :
    (behind file before).line ≤ before.length + 1 ∧ (behind file before).col ≤ before.length + 1 := by
  have hline := List.count_le_length (a := '\n') (l := before)
  have hcol := (List.takeWhile_prefix (l := before.reverse) (· ≠ '\n')).length_le
  rw [List.length_reverse] at hcol
  constructor <;> dsimp only [behind] <;> omega

end Pos

namespace Scan

/-- A part of a text: what it is, where it starts, and what it covers. -/
structure Part where
  kind : Kind
  pos : Pos
  pieces : List Utf8.Piece

namespace Part

/-- The characters of a part. -/
def chars (p : Part) : List Char := p.pieces.map (·.shown)

/-- The bytes of a part. -/
def bytes (p : Part) : List UInt8 := p.pieces.flatMap (·.bytes)

/-- What a part says if it is a token, and where. -/
def seen? (p : Part) : Option (Token × LitKind × String × Pos) :=
  match p.kind with
  | .lexeme token kind text => some (token, kind, text, p.pos)
  | _ => none

/-- The report of a character that starts nothing. -/
def stray? (p : Part) : Option LexError :=
  match p.kind, p.chars with
  | .junk, [c] => some ⟨p.pos, .unexpected c⟩
  | _, _ => none

end Part

/-- The parts `parts` divide a text: they cover all of its bytes in order, they are where
they say, and they look as their kinds say. -/
structure Divides (file : String) (bytes : List UInt8) (parts : List Part) : Prop where
  cut : Utf8.Cut bytes (parts.flatMap (·.pieces))
  places : ∀ before p after, parts = before ++ p :: after →
    p.pos = Pos.behind file (before.flatMap (·.chars))
  shapes : ∀ p ∈ parts, Spells p.kind p.chars

/-- No byte is skipped or used twice. -/
theorem Divides.bytes {file : String} {bytes : List UInt8} {parts : List Part}
    (h : Divides file bytes parts) : parts.flatMap (·.bytes) = bytes := by
  rw [← h.cut.flatMap_bytes, List.flatMap_assoc]
  rfl

/-! Taking one part -/

/-- The glyphs of the pieces `ps`, which stand behind the characters `before`. -/
def glyphs (file : String) (before : List Char) (ps : List Utf8.Piece) : List Glyph :=
  Glyph.place (Pos.behind file before) (ps.map (·.rune))

variable {file : String} {before : List Char} {c : Utf8.Piece} {ps rest : List Utf8.Piece}

theorem glyphs_cons (file : String) (before : List Char) (c : Utf8.Piece)
    (rest : List Utf8.Piece) : glyphs file before (c :: rest) =
      ⟨c.shown, c.rune.wellFormed, Pos.behind file before⟩ ::
        glyphs file (before ++ [c.shown]) rest := by
  rw [glyphs, glyphs, Pos.behind_concat]
  rfl

theorem glyphs_append (file : String) (before : List Char) (ps qs : List Utf8.Piece) :
    glyphs file before (ps ++ qs) =
      glyphs file before ps ++ glyphs file (before ++ ps.map (·.shown)) qs := by
  induction ps generalizing before with
  | nil => simp [glyphs, Glyph.place]
  | cons c ps ih => simp [glyphs_cons, ih]

theorem glyphs_chars (file : String) (before : List Char) (ps : List Utf8.Piece) :
    (glyphs file before ps).map (·.char) = ps.map (·.shown) := by
  induction ps generalizing before with
  | nil => rfl
  | cons c ps ih => rw [glyphs_cons, List.map_cons, ih, List.map_cons]

theorem length_glyphs (file : String) (before : List Char) (ps : List Utf8.Piece) :
    (glyphs file before ps).length = ps.length := by
  rw [glyphs, Glyph.length_place, List.length_map]

theorem endOf_behind (file : String) (before : List Char) (ps : List Utf8.Piece) :
    Glyph.endOf (Pos.behind file before) (ps.map (·.rune)) =
      Pos.behind file (before ++ ps.map (·.shown)) := by
  induction ps generalizing before with
  | nil => simp [Glyph.endOf]
  | cons c ps ih =>
      have hnext := ih (before ++ [c.shown])
      rw [Pos.behind_concat] at hnext
      rw [List.map_cons, Glyph.endOf, List.map_cons, List.append_cons]
      exact hnext

/-- A glyph stands behind the characters before it. -/
theorem exists_behind {g : Glyph} (h : g ∈ glyphs file before ps) : ∃ cs more,
    ps.map (·.shown) = cs ++ more ∧ g.pos = Pos.behind file (before ++ cs) := by
  induction ps generalizing before with
  | nil => cases h
  | cons c ps ih =>
      rw [glyphs_cons] at h
      rcases List.mem_cons.1 h with rfl | h
      · exact ⟨[], _, rfl, by simp⟩
      · obtain ⟨cs, more, hcs, hpos⟩ := ih h
        exact ⟨c.shown :: cs, more, by rw [List.map_cons, hcs, List.cons_append], by simpa using hpos⟩

/-- The piece of scanning at the start of `c :: rest`. -/
def firstOf (file : String) (eof : Pos) (before : List Char) (c : Utf8.Piece)
    (rest : List Utf8.Piece) : Piece :=
  first eof ⟨c.shown, c.rune.wellFormed, Pos.behind file before⟩
    (glyphs file (before ++ [c.shown]) rest)

/-- The parts of the pieces `ps`, which stand behind the characters `before`; the first `skip`
of them belong to the part before. -/
def partsFrom (file : String) (eof : Pos) (before : List Char) : List Utf8.Piece → Nat → List Part
  | [], _ => []
  | c :: rest, skip + 1 => partsFrom file eof (before ++ [c.shown]) rest skip
  | c :: rest, 0 =>
    let p := firstOf file eof before c rest
    ⟨p.kind, Pos.behind file before, (c :: rest).take p.size⟩ ::
      partsFrom file p.eof (before ++ [c.shown]) rest (p.size - 1)

theorem partsFrom_drop (file : String) (eof : Pos) (before : List Char) (ps : List Utf8.Piece)
    (n : Nat) : partsFrom file eof before ps n =
      partsFrom file eof (before ++ (ps.take n).map (·.shown)) (ps.drop n) 0 := by
  induction ps generalizing before n with
  | nil => simp [partsFrom]
  | cons c ps ih =>
      cases n with
      | zero => simp
      | succ n => simp [partsFrom, ih]

section

variable (file : String) (eof : Pos) (before : List Char) (c : Utf8.Piece) (rest : List Utf8.Piece)

theorem firstOf_covers : Covers (firstOf file eof before c rest) (glyphs file before (c :: rest)) := by
  rw [glyphs_cons]
  exact first_covers ..

theorem firstOf_size_pos : 0 < (firstOf file eof before c rest).size :=
  (firstOf_covers file eof before c rest).size_pos

theorem drop_lt : ((c :: rest).drop (firstOf file eof before c rest).size).length <
    (c :: rest).length := by
  have hpos := firstOf_size_pos file eof before c rest
  rw [List.length_drop, List.length_cons]
  omega

/-- The first part, and the parts behind it. -/
theorem partsFrom_cons : partsFrom file eof before (c :: rest) 0 =
    ⟨(firstOf file eof before c rest).kind, Pos.behind file before,
      (c :: rest).take (firstOf file eof before c rest).size⟩ ::
    partsFrom file (firstOf file eof before c rest).eof
      (before ++ ((c :: rest).take (firstOf file eof before c rest).size).map (·.shown))
      ((c :: rest).drop (firstOf file eof before c rest).size) 0 := by
  obtain ⟨n, hn⟩ := Nat.exists_eq_add_one.2 (firstOf_size_pos file eof before c rest)
  rw [partsFrom, partsFrom_drop]
  simp [hn]

/-- What is scanned behind the first part. -/
theorem glyphs_drop : (glyphs file before (c :: rest)).drop (firstOf file eof before c rest).size =
    glyphs file
      (before ++ ((c :: rest).take (firstOf file eof before c rest).size).map (·.shown))
      ((c :: rest).drop (firstOf file eof before c rest).size) := by
  have hle := (firstOf_covers file eof before c rest).size_le
  rw [length_glyphs] at hle
  have hlen : (glyphs file before
      ((c :: rest).take (firstOf file eof before c rest).size)).length =
        (firstOf file eof before c rest).size := by
    rw [length_glyphs, List.length_take, Nat.min_eq_left hle]
  have hsplit := glyphs_append file before
    ((c :: rest).take (firstOf file eof before c rest).size)
    ((c :: rest).drop (firstOf file eof before c rest).size)
  rw [List.take_append_drop] at hsplit
  calc (glyphs file before (c :: rest)).drop (firstOf file eof before c rest).size
      = (glyphs file before (c :: rest)).drop (glyphs file before
          ((c :: rest).take (firstOf file eof before c rest).size)).length := by rw [hlen]
    _ = _ := by rw [hsplit, List.drop_left]

theorem lexemesFrom_cons (pending : List LexError) :
    lexemesFrom eof pending (glyphs file before (c :: rest)) 0 =
      let p := firstOf file eof before c rest
      let faults := pending ++ noticed p (glyphs file before (c :: rest))
      let behind := glyphs file (before ++ ((c :: rest).take p.size).map (·.shown))
        ((c :: rest).drop p.size)
      match p.kind with
      | .lexeme token kind text =>
        ⟨token, text, kind, Pos.behind file before, faults⟩ :: lexemesFrom p.eof [] behind 0
      | _ => lexemesFrom p.eof faults behind 0 := by
  obtain ⟨n, hn⟩ := Nat.exists_eq_add_one.2 (firstOf_size_pos file eof before c rest)
  have hdrop := glyphs_drop file eof before c rest
  dsimp only
  rw [← hdrop, hn, glyphs_cons, List.drop_succ_cons, lexemesFrom]
  change (match (firstOf file eof before c rest).kind with
    | .lexeme token kind text => _ :: lexemesFrom _ [] _ ((firstOf file eof before c rest).size - 1)
    | _ => lexemesFrom _ _ _ ((firstOf file eof before c rest).size - 1)) = _
  rw [hn, Nat.add_sub_cancel, lexemesFrom_drop _ [], lexemesFrom_drop _ (pending ++ _)]
  rfl

end

/-- A text is read part by part. -/
theorem parts_induction (file : String) {motive : Pos → List Char → List Utf8.Piece → Prop}
    (nil : ∀ eof before, motive eof before [])
    (cons : ∀ eof before c rest,
      motive (firstOf file eof before c rest).eof
        (before ++ ((c :: rest).take (firstOf file eof before c rest).size).map (·.shown))
        ((c :: rest).drop (firstOf file eof before c rest).size) →
      motive eof before (c :: rest)) :
    ∀ eof before ps, motive eof before ps := by
  intro eof before ps
  induction hn : ps.length using Nat.strongRecOn generalizing eof before ps with
  | ind n ih =>
  cases ps with
  | nil => exact nil eof before
  | cons c rest => exact cons eof before c rest (ih _ (hn ▸ drop_lt file eof before c rest) _ _ _ rfl)

/-! The parts of a text -/

theorem partsFrom_pieces (eof : Pos) (before : List Char) (ps : List Utf8.Piece) :
    (partsFrom file eof before ps 0).flatMap (·.pieces) = ps := by
  refine parts_induction file
    (motive := fun eof before ps => (partsFrom file eof before ps 0).flatMap (·.pieces) = ps)
    (fun _ _ => rfl) (fun eof before c rest ih => ?_) eof before ps
  rw [partsFrom_cons, List.flatMap_cons, ih, List.take_append_drop]

theorem partsFrom_places (eof : Pos) (before : List Char) (ps : List Utf8.Piece) :
    ∀ (front : List Part) (p : Part) (back : List Part),
      partsFrom file eof before ps 0 = front ++ p :: back →
        p.pos = Pos.behind file (before ++ front.flatMap (·.chars)) := by
  refine parts_induction file (motive := fun eof before ps => ∀ (front : List Part) (p : Part)
    (back : List Part), partsFrom file eof before ps 0 = front ++ p :: back →
      p.pos = Pos.behind file (before ++ front.flatMap (·.chars)))
    (fun _ _ front p back h => by simp [partsFrom] at h)
    (fun eof before c rest ih front p back h => ?_) eof before ps
  rw [partsFrom_cons] at h
  cases front with
  | nil =>
      obtain ⟨rfl, _⟩ := List.cons.inj h
      simp
  | cons q front =>
      rw [List.cons_append] at h
      obtain ⟨rfl, hback⟩ := List.cons.inj h
      rw [ih front p back hback, List.flatMap_cons, ← List.append_assoc]
      rfl

theorem partsFrom_shapes (eof : Pos) (before : List Char) (ps : List Utf8.Piece) :
    ∀ p ∈ partsFrom file eof before ps 0, Spells p.kind p.chars := by
  refine parts_induction file (motive := fun eof before ps =>
    ∀ p ∈ partsFrom file eof before ps 0, Spells p.kind p.chars)
    (fun _ _ p hp => by cases hp) (fun eof before c rest ih p hp => ?_) eof before ps
  rw [partsFrom_cons] at hp
  rcases List.mem_cons.1 hp with rfl | hp
  · have hspells := (firstOf_covers file eof before c rest).spells
    rwa [List.map_take, glyphs_chars, ← List.map_take] at hspells
  · exact ih p hp

/-- The parts of a text. -/
def parts (file : String) (bytes : List UInt8) : List Part :=
  let ps := Utf8.pieces bytes
  partsFrom file (Pos.behind file (ps.map (·.shown))) [] ps 0

theorem parts_divide (file : String) (bytes : List UInt8) : Divides file bytes (parts file bytes) where
  cut := by
    rw [parts, partsFrom_pieces]
    exact Utf8.cut_pieces bytes
  places := partsFrom_places _ [] (Utf8.pieces bytes)
  shapes := partsFrom_shapes _ _ _

/-- The lexemes of a text, read from its pieces. -/
theorem lexemes_eq (file : String) (bytes : List UInt8) : lexemes file bytes =
    let ps := Utf8.pieces bytes
    lexemesFrom (Pos.behind file (ps.map (·.shown))) (encodingFaults ((glyphs file [] ps).take 1))
      (glyphs file [] ps) 0 := by
  have hend := endOf_behind file [] (Utf8.pieces bytes)
  rw [Pos.behind_nil, List.nil_append] at hend
  simp only [lexemes, Utf8.runes, hend]
  rfl

end Scan

end ClassLang

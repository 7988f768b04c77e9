import ClassLang.Proofs.Token.Parts

/-!
The faults that are noticed while a text is read. Each of them is noticed once: the damaged bytes
in the order of the text, and each of the parts' own faults with the part. All of them are
reported at a character or at the end of the text, but for one: a backslash that ends the text
inside a string literal moves the end by one column, and the literal is then reported there.
-/

namespace ClassLang

/-- What a lexeme says, and where. -/
def Lexeme.seen (l : Lexeme) : Token × LitKind × String × Pos := (l.token, l.kind, l.text, l.pos)

namespace LexError

/-- Whether a byte could not be decoded. -/
def isDamage (x : LexError) : Bool := x.fault = .badEncoding

/-- Whether a character starts nothing. -/
def isStray (x : LexError) : Bool :=
  match x.fault with
  | .unexpected _ => true
  | _ => false

end LexError

namespace Scan

/-! Merging two lists -/

section

variable {α : Type} {q : α → Bool} {le : α → α → Bool}

theorem filter_merge_left {xs : List α} (ys : List α) (h : ∀ x ∈ xs, q x = false) :
    (xs.merge ys le).filter q = ys.filter q := by
  induction xs generalizing ys with
  | nil => rw [List.nil_merge]
  | cons x xs ih =>
      obtain ⟨hx, hxs⟩ := List.forall_mem_cons.1 h
      induction ys with
      | nil =>
          rw [List.merge_right]
          exact List.filter_eq_nil_iff.2 fun y hy => by simp [h y hy]
      | cons y ys ihy =>
          rw [List.cons_merge_cons]
          split
          · rw [List.filter_cons_of_neg (by simp [hx]), ih _ hxs]
          · rw [List.filter_cons, List.filter_cons, ihy]

theorem filter_merge_right (xs : List α) {ys : List α} (h : ∀ y ∈ ys, q y = false) :
    (xs.merge ys le).filter q = xs.filter q := by
  induction xs generalizing ys with
  | nil =>
      rw [List.nil_merge]
      exact List.filter_eq_nil_iff.2 fun y hy => by simp [h y hy]
  | cons x xs ih =>
      induction ys with
      | nil => rw [List.merge_right]
      | cons y ys ihy =>
          obtain ⟨hy, hys⟩ := List.forall_mem_cons.1 h
          rw [List.cons_merge_cons]
          split
          · rw [List.filter_cons, List.filter_cons, ih h]
          · rw [List.filter_cons_of_neg (by simp [hy]), ihy hys]

end

/-! The faults of one part -/

/-- A string literal whose last character is a backslash that escapes nothing. -/
def endsInEscape : List Char → Bool
  | [] => false
  | '\\' :: [] => true
  | '\\' :: _ :: cs => endsInEscape cs
  | _ :: cs => endsInEscape cs

/-- Whether a piece is a string literal that ends with a backslash which escapes nothing. -/
def opensEscape : Kind → List Char → Bool
  | .lexeme .literal .string _, cs => endsInEscape cs.tail
  | _, _ => false

theorem endsInEscape_cons {c : Char} (cs : List Char) (hc : c ≠ '\\') :
    endsInEscape (c :: cs) = endsInEscape cs := by
  rw [endsInEscape]
  · exact fun h => absurd h hc
  · exact fun _ _ h => absurd h hc

/-- A fault of the piece `p` at the start of the glyphs `gs`, in a text that ends at `eof`. -/
structure Own (eof : Pos) (gs : List Glyph) (p : Piece) (x : LexError) : Prop where
  encoding : x.fault ≠ .badEncoding
  unexpected : ∀ c, x.fault = .unexpected c → p.kind = .junk
  place : x.pos ∈ eof :: gs.map (·.pos) ∨ (p.eof = eof.beyond ∧ x = ⟨eof.beyond, .unterminated⟩)

theorem headPos_mem (eof : Pos) {gs all : List Glyph} (h : gs ⊆ all) :
    Glyph.headPos eof gs ∈ eof :: all.map (·.pos) := by
  cases gs with
  | nil => exact List.mem_cons_self
  | cons g gs =>
      exact List.mem_cons_of_mem _ (List.mem_map_of_mem (h List.mem_cons_self))

/-- A fault other than those, at a place where something can be missed. -/
theorem own_of_mem {eof pos : Pos} {gs : List Glyph} {p : Piece} {fault : LexFault} {x : LexError}
    (h : x ∈ [⟨pos, fault⟩]) (hpos : pos ∈ eof :: gs.map (·.pos)) (hencoding : fault ≠ .badEncoding)
    (hunexpected : ∀ c, fault ≠ .unexpected c) : Own eof gs p x := by
  obtain rfl := List.mem_singleton.1 h
  exact ⟨hencoding, fun c hc => absurd hc (hunexpected c), Or.inl hpos⟩

section

variable {eof : Pos} {g : Glyph} {rest : List Glyph} {x : LexError}

theorem own_hexNumber {y : Glyph} (h : x ∈ (hexNumber eof g y rest).faults) :
    Own eof (g :: y :: rest) (hexNumber eof g y rest) x := by
  simp only [hexNumber] at h
  split at h
  · exact own_of_mem h (headPos_mem eof fun _ hz => by simp [hz]) (by simp) (by simp)
  · cases h

theorem mem_exponent (gs : List Glyph) (h : x ∈ (exponent eof gs).2) :
    ∃ n, x = ⟨Glyph.headPos eof (gs.drop n), .noExponent⟩ := by
  cases gs with
  | nil => cases h
  | cons mark gs =>
      simp only [exponent] at h
      split at h
      · split at h
        · exact ⟨(sign gs).length + 1, List.mem_singleton.1 h⟩
        · cases h
      · cases h

theorem own_number {gs : List Glyph} (h : x ∈ (number eof gs).faults) :
    Own eof gs (number eof gs) x := by
  obtain ⟨n, hx⟩ := mem_exponent ((gs.drop _).drop _) h
  refine own_of_mem (List.mem_singleton.2 hx) (headPos_mem eof fun y hy => ?_) (by simp) (by simp)
  exact List.mem_of_mem_drop (List.mem_of_mem_drop (List.mem_of_mem_drop hy))

/-- A literal that ends with an open escape ends with the text, and moves its end. -/
theorem stringBody_eof (eof : Pos) (gs : List Glyph) :
    (stringBody eof gs).2.2.2 =
      (if endsInEscape ((gs.take (stringBody eof gs).2.1).map (·.char)) then eof.beyond else eof) ∧
    (endsInEscape ((gs.take (stringBody eof gs).2.1).map (·.char)) = true →
      (stringBody eof gs).2.1 = gs.length) := by
  fun_induction stringBody eof gs with
  | case1 => simp [endsInEscape]
  | case2 g rest hquote => simp [hquote, endsInEscape]
  | case3 g rest hquote hline => simp [endsInEscape]
  | case4 g hquote hline hescape =>
      rw [List.take_one, List.head?_cons, Option.toList_some, List.map_singleton, hescape]
      exact ⟨rfl, fun _ => rfl⟩
  | case5 g hquote hline hescape e rest chars size faults last hrest c hknown ih =>
      rw [hrest] at ih
      simpa [hescape, endsInEscape] using ih
  | case6 g hquote hline hescape e rest chars size faults last hrest hunknown ih =>
      rw [hrest] at ih
      simpa [hescape, endsInEscape] using ih
  | case7 g rest hquote hline hescape chars size faults last hrest ih =>
      rw [hrest] at ih
      simpa [endsInEscape_cons _ hescape] using ih

/-- The faults of a string literal: it does not end, or a backslash escapes nothing. -/
theorem mem_stringBody (eof : Pos) (gs : List Glyph) : ∀ x ∈ (stringBody eof gs).2.2.1,
    (x.fault = .unterminated ∨ ∃ c, x.fault = .badEscape c) ∧
      (x.pos ∈ eof :: gs.map (·.pos) ∨
        (stringBody eof gs).2.2.2 = eof.beyond ∧ x = ⟨eof.beyond, .unterminated⟩) := by
  fun_induction stringBody eof gs with
  | case1 => simp
  | case2 => simp
  | case3 => simp
  | case4 g hquote hline hescape past =>
      intro x hx
      rcases List.mem_cons.1 hx with rfl | hx
      · exact ⟨Or.inr ⟨_, rfl⟩, Or.inl List.mem_cons_self⟩
      · obtain rfl := List.mem_singleton.1 hx
        exact ⟨Or.inl rfl, Or.inr ⟨rfl, rfl⟩⟩
  | case5 g hquote hline hescape e rest chars size faults last hrest c hknown ih =>
      rw [hrest] at ih
      intro x hx
      obtain ⟨hfault, hpos⟩ := ih x hx
      refine ⟨hfault, hpos.imp_left fun h => ?_⟩
      rcases List.mem_cons.1 h with heq | hmem
      · exact heq ▸ List.mem_cons_self
      · exact List.mem_cons_of_mem _ (List.mem_cons_of_mem _ (List.mem_cons_of_mem _ hmem))
  | case6 g hquote hline hescape e rest chars size faults last hrest hunknown ih =>
      rw [hrest] at ih
      intro x hx
      rcases List.mem_cons.1 hx with rfl | hx
      · exact ⟨Or.inr ⟨_, rfl⟩, Or.inl (by simp)⟩
      obtain ⟨hfault, hpos⟩ := ih x hx
      refine ⟨hfault, hpos.imp_left fun h => ?_⟩
      rcases List.mem_cons.1 h with heq | hmem
      · exact heq ▸ List.mem_cons_self
      · exact List.mem_cons_of_mem _ (List.mem_cons_of_mem _ (List.mem_cons_of_mem _ hmem))
  | case7 g rest hquote hline hescape chars size faults last hrest ih =>
      rw [hrest] at ih
      intro x hx
      obtain ⟨hfault, hpos⟩ := ih x hx
      refine ⟨hfault, hpos.imp_left fun h => ?_⟩
      rcases List.mem_cons.1 h with heq | hmem
      · exact heq ▸ List.mem_cons_self
      · exact List.mem_cons_of_mem _ (List.mem_cons_of_mem _ hmem)

theorem own_string (h : x ∈ (string eof rest).faults) :
    Own eof (g :: rest) (string eof rest) x := by
  obtain ⟨hfault, hpos⟩ := mem_stringBody eof rest x h
  refine ⟨?_, ?_, hpos.imp_left fun hmem => ?_⟩
  · rcases hfault with hfault | ⟨c, hfault⟩ <;> simp [hfault]
  · rcases hfault with hfault | ⟨c, hfault⟩ <;> simp [hfault]
  · rcases List.mem_cons.1 hmem with heq | hmem
    · exact heq ▸ List.mem_cons_self
    · exact List.mem_cons_of_mem _ (List.mem_cons_of_mem _ hmem)

theorem own_symbol : ∀ x ∈ (symbol eof g rest).faults,
    Own eof (g :: rest) (symbol eof g rest) x := by
  have hnext := headPos_mem eof (List.subset_cons_self g rest)
  refine symbol_cases (motive := fun p => ∀ x ∈ p.faults, Own eof (g :: rest) p x) eof g rest
    (fun _ _ _ _ _ _ h => nomatch h) (fun _ _ _ _ _ _ h => nomatch h) ?_ ?_
    (fun _ _ _ h => nomatch h) ?_
  · exact fun _ x hx => own_of_mem hx hnext (by simp) (by simp)
  · exact fun _ x hx => own_of_mem hx hnext (by simp) (by simp)
  · intro _ _ _ x hx
    obtain rfl := List.mem_singleton.1 hx
    exact ⟨by simp, fun _ _ => rfl, Or.inl (by simp)⟩

theorem own_first : ∀ x ∈ (first eof g rest).faults,
    Own eof (g :: rest) (first eof g rest) x := by
  refine first_cases (motive := fun p => ∀ x ∈ p.faults, Own eof (g :: rest) p x) eof g rest
    (fun _ _ h => nomatch h) (fun _ _ h => nomatch h) ?_ (fun _ _ => own_number)
    (fun _ _ => own_string) (fun _ _ _ _ => own_symbol)
  rintro y more rfl _ _ x h
  exact own_hexNumber h

/-- A character that starts nothing is reported, and nothing else. -/
theorem first_junk : (first eof g rest).kind = .junk →
    (first eof g rest).faults = [⟨g.pos, .unexpected g.char⟩] ∧ (first eof g rest).size = 1 := by
  let motive (p : Piece) : Prop :=
    p.kind = .junk → p.faults = [⟨g.pos, .unexpected g.char⟩] ∧ p.size = 1
  refine first_cases (motive := motive) eof g rest (fun _ h => nomatch h) (fun _ h => nomatch h)
    (fun _ _ _ _ _ h => nomatch h) (fun _ h => nomatch h) (fun _ h => nomatch h) fun _ _ _ _ => ?_
  exact symbol_cases (motive := motive) eof g rest (fun _ _ _ _ _ h => nomatch h)
    (fun _ _ _ _ _ h => nomatch h) (fun _ h => nomatch h) (fun _ h => nomatch h)
    (fun _ _ h => nomatch h) (fun _ _ _ _ => ⟨rfl, rfl⟩)

/-- Only a string literal with an open escape moves the end of the text, and it ends with it. -/
theorem first_eof (eof : Pos) (g : Glyph) (rest : List Glyph) :
    let p := first eof g rest
    let opens := opensEscape p.kind (((g :: rest).take p.size).map (·.char))
    p.eof = (if opens then eof.beyond else eof) ∧ (opens = true → p.size = (g :: rest).length) := by
  let motive (p : Piece) : Prop :=
    let opens := opensEscape p.kind (((g :: rest).take p.size).map (·.char))
    p.eof = (if opens then eof.beyond else eof) ∧ (opens = true → p.size = (g :: rest).length)
  have hother : ∀ p : Piece, (∀ s, p.kind ≠ .lexeme .literal .string s) → p.eof = eof → motive p := by
    intro p hkind heof
    have hopens : opensEscape p.kind (((g :: rest).take p.size).map (·.char)) = false := by
      unfold opensEscape
      split
      next hstring => exact absurd hstring (hkind _)
      next => rfl
    dsimp only [motive]
    rw [hopens]
    exact ⟨heof, nofun⟩
  refine first_cases (motive := motive) eof g rest ?blank ?word ?hex ?decimal ?text ?sign
  case blank => exact fun _ => hother _ (by simp) rfl
  case word => exact fun _ => hother _ (by simp) rfl
  case hex => exact fun _ _ _ _ _ => hother _ (by simp [hexNumber]) rfl
  case decimal =>
    refine fun _ => hother _ (fun s h => ?_) rfl
    simp only [number, Kind.lexeme.injEq] at h
    split at h <;> simp at h
  case text =>
    intro _
    obtain ⟨heof, hall⟩ := stringBody_eof eof rest
    exact ⟨heof, fun hopen => congrArg (· + 1) (hall hopen)⟩
  case sign =>
    refine fun _ _ _ _ => symbol_cases (motive := motive) eof g rest ?_ ?_ ?_ ?_ ?_ ?_
    all_goals intros; exact hother _ (by simp [operator]) rfl

end

/-! The faults of a text -/

/-- The faults noticed from some glyph on, of which the first `skip` belong to the part
before. -/
def noticedFrom (eof : Pos) : List Glyph → Nat → List LexError
  | [], _ => []
  | _ :: rest, skip + 1 => noticedFrom eof rest skip
  | g :: rest, 0 =>
    let p := first eof g rest
    noticed p (g :: rest) ++ noticedFrom p.eof rest (p.size - 1)

theorem noticedFrom_drop (eof : Pos) (gs : List Glyph) (n : Nat) :
    noticedFrom eof gs n = noticedFrom eof (gs.drop n) 0 := by
  induction gs generalizing n with
  | nil => simp [noticedFrom]
  | cons g gs ih =>
      cases n with
      | zero => rfl
      | succ n => exact ih n

/-- Each fault is noticed with one lexeme. -/
theorem lexemesFrom_faults (eof : Pos) (pending : List LexError) (gs : List Glyph) (skip : Nat) :
    (lexemesFrom eof pending gs skip).flatMap (·.faults) = pending ++ noticedFrom eof gs skip := by
  induction gs generalizing eof pending skip with
  | nil => simp [lexemesFrom, noticedFrom]
  | cons g gs ih =>
      cases skip with
      | succ skip => exact ih eof pending skip
      | zero =>
          simp only [lexemesFrom, noticedFrom]
          split
          · rw [List.flatMap_cons, ih, List.nil_append, List.append_assoc]
          · rw [ih, List.append_assoc]

variable {file : String}

theorem noticedFrom_cons (eof : Pos) (before : List Char) (c : Utf8.Piece) (rest : List Utf8.Piece) :
    noticedFrom eof (glyphs file before (c :: rest)) 0 =
      let p := firstOf file eof before c rest
      noticed p (glyphs file before (c :: rest)) ++
        noticedFrom p.eof (glyphs file (before ++ ((c :: rest).take p.size).map (·.shown))
          ((c :: rest).drop p.size)) 0 := by
  obtain ⟨n, hn⟩ := Nat.exists_eq_add_one.2 (firstOf_size_pos file eof before c rest)
  have hdrop := glyphs_drop file eof before c rest
  dsimp only
  rw [← hdrop, hn, glyphs_cons, List.drop_succ_cons, noticedFrom]
  change _ ++ noticedFrom _ _ ((firstOf file eof before c rest).size - 1) = _
  rw [hn, Nat.add_sub_cancel, noticedFrom_drop]
  rfl

theorem fault_of_encodingFaults {gs : List Glyph} :
    ∀ x ∈ encodingFaults gs, x.fault = .badEncoding := by
  intro x hx
  obtain ⟨g, _, rfl⟩ := List.mem_map.1 hx
  rfl

theorem encodingFaults_append (gs gs' : List Glyph) :
    encodingFaults (gs ++ gs') = encodingFaults gs ++ encodingFaults gs' := by
  simp [encodingFaults]

/-- The damage that is noticed is that of the characters behind the first. -/
theorem filter_damage (eof : Pos) (before : List Char) (ps : List Utf8.Piece) :
    (noticedFrom eof (glyphs file before ps) 0).filter LexError.isDamage =
      encodingFaults (glyphs file before ps).tail := by
  refine parts_induction file (motive := fun eof before ps =>
    (noticedFrom eof (glyphs file before ps) 0).filter LexError.isDamage =
      encodingFaults (glyphs file before ps).tail)
    (fun _ _ => rfl) (fun eof before c rest ih => ?_) eof before ps
  have hown : ∀ x ∈ (firstOf file eof before c rest).faults, x.isDamage = false := by
    intro x hx
    simpa [LexError.isDamage] using (own_first x hx).encoding
  have hdamage : ∀ gs, (encodingFaults gs).filter LexError.isDamage = encodingFaults gs := fun gs =>
    List.filter_eq_self.2 fun x hx => by simp [LexError.isDamage, fault_of_encodingFaults x hx]
  rw [noticedFrom_cons, List.filter_append, ih, noticed, filter_merge_right _ hown, hdamage,
    ← glyphs_drop, List.tail_drop, ← List.drop_tail, ← encodingFaults_append,
    List.take_append_drop]

/-- The reports of characters that start nothing are those of the stray parts. -/
theorem filter_stray (eof : Pos) (before : List Char) (ps : List Utf8.Piece) :
    (noticedFrom eof (glyphs file before ps) 0).filter LexError.isStray =
      (partsFrom file eof before ps 0).filterMap Part.stray? := by
  refine parts_induction file (motive := fun eof before ps =>
    (noticedFrom eof (glyphs file before ps) 0).filter LexError.isStray =
      (partsFrom file eof before ps 0).filterMap Part.stray?)
    (fun _ _ => rfl) (fun eof before c rest ih => ?_) eof before ps
  have hdamage : ∀ gs, ∀ x ∈ encodingFaults gs, x.isStray = false := by
    intro gs x hx
    simp [LexError.isStray, fault_of_encodingFaults x hx]
  rw [noticedFrom_cons, List.filter_append, ih, noticed, filter_merge_left _ (hdamage _),
    partsFrom_cons, List.filterMap_cons]
  cases hkind : (firstOf file eof before c rest).kind with
  | junk =>
      obtain ⟨hfaults, hsize⟩ := first_junk hkind
      have hfaults : (firstOf file eof before c rest).faults =
          [⟨Pos.behind file before, .unexpected c.shown⟩] := hfaults
      have hsize : (firstOf file eof before c rest).size = 1 := hsize
      have hreport : [(⟨Pos.behind file before, .unexpected c.shown⟩ : LexError)].filter
          LexError.isStray = [⟨Pos.behind file before, .unexpected c.shown⟩] := rfl
      simp [hfaults, hsize, hreport, Part.stray?, Part.chars]
  | _ =>
      have hown : (firstOf file eof before c rest).faults.filter LexError.isStray = [] := by
        refine List.filter_eq_nil_iff.2 fun x hx hstray => ?_
        unfold LexError.isStray at hstray
        split at hstray
        next d hd =>
          have hjunk : (firstOf file eof before c rest).kind = .junk :=
            (own_first x hx).unexpected d hd
          rw [hkind] at hjunk
          cases hjunk
        next => cases hstray
      simp [hown, Part.stray?]

/-- The end of the text, where `opens` tells whether it was moved. -/
def endMoved (eof : Pos) (opens : Bool) : Pos := if opens then eof.beyond else eof

/-- Whether one of the parts ends with an open escape. -/
def Part.anyOpen (parts : List Part) : Bool := parts.any fun p => opensEscape p.kind p.chars

section

variable (file : String) (eof : Pos) (before : List Char) (c : Utf8.Piece) (rest : List Utf8.Piece)

/-- Behind a part with an open escape nothing is left. -/
theorem firstOf_eof :
    let p := firstOf file eof before c rest
    let opens := opensEscape p.kind (((c :: rest).take p.size).map (·.shown))
    p.eof = endMoved eof opens ∧ (opens = true → (c :: rest).drop p.size = []) := by
  obtain ⟨heof, hall⟩ := first_eof eof ⟨c.shown, c.rune.wellFormed, Pos.behind file before⟩
    (glyphs file (before ++ [c.shown]) rest)
  rw [← glyphs_cons, List.map_take, glyphs_chars, ← List.map_take] at heof hall
  rw [length_glyphs] at hall
  exact ⟨heof, fun hopen => List.drop_eq_nil_of_le (Nat.le_of_eq (hall hopen).symm)⟩

/-- The first part ends with an open escape and is the last, or it leaves the end where it is. -/
theorem firstOf_eof_cases :
    let p := firstOf file eof before c rest
    (p.eof = eof.beyond ∧ (c :: rest).drop p.size = [] ∧
      Part.anyOpen (partsFrom file eof before (c :: rest) 0) = true) ∨
    (p.eof = eof ∧ Part.anyOpen (partsFrom file eof before (c :: rest) 0) =
      Part.anyOpen (partsFrom file eof
        (before ++ ((c :: rest).take p.size).map (·.shown)) ((c :: rest).drop p.size) 0)) := by
  obtain ⟨heof, hall⟩ := firstOf_eof file eof before c rest
  dsimp only at heof hall ⊢
  rw [partsFrom_cons, Part.anyOpen, List.any_cons, Part.chars, heof]
  cases hopens : opensEscape (firstOf file eof before c rest).kind
      (((c :: rest).take (firstOf file eof before c rest).size).map (·.shown)) with
  | true => exact Or.inl ⟨rfl, hall hopens, rfl⟩
  | false => exact Or.inr ⟨rfl, rfl⟩

end

/-- Where faults are noticed: at a character, at the end of the text, or one column behind it if
the text ends with an open escape. -/
theorem noticedFrom_places (eof : Pos) (before : List Char) (ps : List Utf8.Piece) :
    ∀ x ∈ noticedFrom eof (glyphs file before ps) 0,
      x.pos ∈ eof :: (glyphs file before ps).map (·.pos) ∨
        Part.anyOpen (partsFrom file eof before ps 0) = true ∧ x = ⟨eof.beyond, .unterminated⟩ := by
  refine parts_induction file (motive := fun eof before ps =>
    ∀ x ∈ noticedFrom eof (glyphs file before ps) 0,
      x.pos ∈ eof :: (glyphs file before ps).map (·.pos) ∨
        Part.anyOpen (partsFrom file eof before ps 0) = true ∧ x = ⟨eof.beyond, .unterminated⟩)
    (fun _ _ _ h => nomatch h) (fun eof before c rest ih x hx => ?_) eof before ps
  have hcases := firstOf_eof_cases file eof before c rest
  rw [noticedFrom_cons] at hx
  dsimp only at hcases hx
  rw [← glyphs_drop] at hx ih
  rcases List.mem_append.1 hx with hx | hx
  · rcases List.mem_merge.1 hx with hdamage | hown
    · obtain ⟨g, hg, rfl⟩ := List.mem_map.1 hdamage
      have hmem := List.mem_of_mem_tail (List.mem_of_mem_take (List.mem_filter.1 hg).1)
      exact Or.inl (List.mem_cons_of_mem _ (List.mem_map_of_mem hmem))
    · have hplace := (own_first x hown).place
      rw [← glyphs_cons] at hplace
      refine hplace.imp_right fun ⟨heof, hx⟩ => ⟨?_, hx⟩
      rcases hcases with ⟨_, _, hopen⟩ | ⟨hsame, _⟩
      · exact hopen
      · exact absurd (heof.symm.trans hsame) (Pos.before_beyond eof).ne.symm
  · rcases hcases with ⟨_, hnil, _⟩ | ⟨hsame, hopen⟩
    · rw [glyphs_drop, hnil] at hx
      cases hx
    · rw [hopen]
      rw [hsame] at ih hx
      refine (ih x hx).imp_left fun hmem => ?_
      rcases List.mem_cons.1 hmem with heq | hmem
      · exact heq ▸ List.mem_cons_self
      · obtain ⟨g, hg, hpos⟩ := List.mem_map.1 hmem
        exact List.mem_cons_of_mem _ (List.mem_map.2 ⟨g, List.mem_of_mem_drop hg, hpos⟩)

/-- The lexemes of a text are those of its parts, and its end. -/
theorem lexemesFrom_seen (eof : Pos) (before : List Char) (ps : List Utf8.Piece) :
    ∀ pending, (lexemesFrom eof pending (glyphs file before ps) 0).map Lexeme.seen =
      (partsFrom file eof before ps 0).filterMap Part.seen? ++
        [(Token.eof, LitKind.int, "", endMoved eof (Part.anyOpen (partsFrom file eof before ps 0)))] := by
  refine parts_induction file (motive := fun eof before ps =>
    ∀ pending, (lexemesFrom eof pending (glyphs file before ps) 0).map Lexeme.seen =
      (partsFrom file eof before ps 0).filterMap Part.seen? ++
        [(Token.eof, LitKind.int, "", endMoved eof (Part.anyOpen (partsFrom file eof before ps 0)))])
    (fun _ _ _ => rfl) (fun eof before c rest ih pending => ?_) eof before ps
  have hcases := firstOf_eof_cases file eof before c rest
  have hend : endMoved (firstOf file eof before c rest).eof (Part.anyOpen
      (partsFrom file (firstOf file eof before c rest).eof
        (before ++ ((c :: rest).take (firstOf file eof before c rest).size).map (·.shown))
        ((c :: rest).drop (firstOf file eof before c rest).size) 0)) =
      endMoved eof (Part.anyOpen (partsFrom file eof before (c :: rest) 0)) := by
    rcases hcases with ⟨heof, hnil, hopen⟩ | ⟨hsame, hopen⟩
    · rw [hnil, hopen, heof]
      rfl
    · rw [hopen, hsame]
  rw [hend] at ih
  rw [lexemesFrom_cons]
  dsimp only
  cases hkind : (firstOf file eof before c rest).kind with
  | lexeme token kind text =>
      dsimp only
      rw [List.map_cons, ih, partsFrom_cons, List.filterMap_cons]
      simp [Part.seen?, hkind, Lexeme.seen]
  | _ =>
      dsimp only
      rw [ih, partsFrom_cons, List.filterMap_cons]
      simp [Part.seen?, hkind]

end Scan

end ClassLang

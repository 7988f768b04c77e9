import Mathlib
import ClassLang.Proofs.Token.Noticed

/-!
Scanning as it is asked for, one token at a time. The tokens come in the order of the lexemes of
the text, and once the end of the text is reached every further token is that end. The text is
divided into parts, so nothing of it is lost; each part that starts nothing and each damaged byte
is reported once.
-/

namespace ClassLang

open Scan

/-- A scanner between two tokens: where its text ends as far as it knows, the faults it noticed
since the last token, and what it has yet to read. -/
structure Scanner where
  eof : Pos
  pending : List LexError
  left : List Glyph

namespace Scanner

/-- The next token, and the scanner behind it. The first `skip` glyphs belong to the part
before. -/
def nextFrom (eof : Pos) (pending : List LexError) : List Glyph → Nat → Lexeme × Scanner
  | [], _ => (⟨.eof, "", .int, eof, pending⟩, ⟨eof, [], []⟩)
  | _ :: rest, skip + 1 => nextFrom eof pending rest skip
  | g :: rest, 0 =>
    let p := first eof g rest
    let faults := pending ++ noticed p (g :: rest)
    match p.kind with
    | .lexeme token kind text =>
      (⟨token, text, kind, g.pos, faults⟩, ⟨p.eof, [], rest.drop (p.size - 1)⟩)
    | _ => nextFrom p.eof faults rest (p.size - 1)

/-- A scanner at the start of a text. It has looked at the first character. -/
def start (file : String) (bytes : List UInt8) : Scanner :=
  let glyphs := Glyph.place (Pos.start file) (Utf8.runes bytes)
  ⟨Glyph.endOf (Pos.start file) (Utf8.runes bytes), encodingFaults (glyphs.take 1), glyphs⟩

/-- The next token, and the scanner behind it. -/
def next (s : Scanner) : Lexeme × Scanner := nextFrom s.eof s.pending s.left 0

/-- The token that is found when one is asked for once more after `k` times. -/
def lexeme (s : Scanner) : Nat → Lexeme
  | 0 => s.next.1
  | k + 1 => s.next.2.lexeme k

/-- All lexemes that are left. -/
def lexemes (s : Scanner) : List Lexeme := lexemesFrom s.eof s.pending s.left 0

/-- The end of a text, met once more. -/
def ended (pos : Pos) : Scanner := ⟨pos, [], []⟩

/-! One token -/

theorem lexemesFrom_next (eof : Pos) (pending : List LexError) (gs : List Glyph) (skip : Nat) :
    (nextFrom eof pending gs skip).1.token = .eof ∧
        lexemesFrom eof pending gs skip = [(nextFrom eof pending gs skip).1] ∧
        (nextFrom eof pending gs skip).2 = ended (nextFrom eof pending gs skip).1.pos ∨
      (nextFrom eof pending gs skip).1.token ≠ .eof ∧
        lexemesFrom eof pending gs skip =
          (nextFrom eof pending gs skip).1 :: (nextFrom eof pending gs skip).2.lexemes := by
  induction gs generalizing eof pending skip with
  | nil => exact Or.inl ⟨rfl, rfl, rfl⟩
  | cons g rest ih =>
      cases skip with
      | succ skip => exact ih eof pending skip
      | zero =>
          rw [nextFrom, lexemesFrom]
          cases hkind : (first eof g rest).kind with
          | lexeme token kind text =>
              refine Or.inr ⟨first_ne_eof hkind, ?_⟩
              rw [lexemesFrom_drop]
              rfl
          | _ => exact ih ..

/-- Asking for a token takes the next lexeme, unless the text is at its end. -/
theorem lexemes_eq_next (s : Scanner) :
    s.next.1.token = .eof ∧ s.lexemes = [s.next.1] ∧ s.next.2 = ended s.next.1.pos ∨
      s.next.1.token ≠ .eof ∧ s.lexemes = s.next.1 :: s.next.2.lexemes :=
  lexemesFrom_next s.eof s.pending s.left 0

theorem next_ended (pos : Pos) : (ended pos).next = (⟨.eof, "", .int, pos, []⟩, ended pos) := rfl

/-- Behind the end of a text there is only its end. -/
theorem lexeme_ended (pos : Pos) (k : Nat) :
    (ended pos).lexeme k = ⟨.eof, "", .int, pos, []⟩ := by
  induction k with
  | zero => rfl
  | succ k ih => rw [lexeme, next_ended, ih]

/-! All tokens -/

/-- The tokens that are found are the lexemes, and then the end of the text again and again. -/
theorem exists_lexeme (s : Scanner) : ∃ n, (List.range (n + 1)).map s.lexeme = s.lexemes ∧
    (∀ k < n, (s.lexeme k).token ≠ .eof) ∧ (s.lexeme n).token = .eof ∧
    ∀ k, n < k → s.lexeme k = ⟨.eof, "", .int, (s.lexeme n).pos, []⟩ := by
  generalize hls : s.lexemes = ls
  induction ls generalizing s with
  | nil =>
      rcases s.lexemes_eq_next with ⟨_, heq, _⟩ | ⟨_, heq⟩ <;> simp [hls] at heq
  | cons l ls ih =>
      rcases s.lexemes_eq_next with ⟨heof, heq, hnext⟩ | ⟨hne, heq⟩
      · refine ⟨0, ?_, nofun, heof, fun k hk => ?_⟩
        · rw [← hls, heq]
          rfl
        · obtain ⟨k, rfl⟩ := Nat.exists_eq_add_one.2 hk
          change s.next.2.lexeme k = _
          rw [hnext, lexeme_ended]
          rfl
      · rw [hls] at heq
        obtain ⟨hl, hrest⟩ := List.cons.inj heq
        obtain ⟨n, hall, hbefore, hend, hbehind⟩ := ih s.next.2 hrest.symm
        refine ⟨n + 1, ?_, fun k hk => ?_, hend, fun k hk => ?_⟩
        · rw [List.range_succ_eq_map, List.map_cons, List.map_map, hl, ← hall]
          rfl
        · cases k with
          | zero => exact hne
          | succ k => exact hbefore k (Nat.lt_of_succ_lt_succ hk)
        · obtain ⟨k, rfl⟩ := Nat.exists_eq_add_one.2 (Nat.zero_lt_of_lt hk)
          exact hbehind k (Nat.lt_of_succ_lt_succ hk)

end Scanner

namespace Scan

/-! What is reported -/

variable {file : String} {bytes : List UInt8}

/-- One report for each damaged byte, at its place. -/
def damageFrom (file : String) (before : List Char) : List Utf8.Piece → List LexError
  | [] => []
  | .char c :: ps => damageFrom file (before ++ [c]) ps
  | .byte _ :: ps =>
    ⟨Pos.behind file before, .badEncoding⟩ :: damageFrom file (before ++ [Utf8.replacement]) ps

theorem encodingFaults_glyphs (before : List Char) (ps : List Utf8.Piece) :
    encodingFaults (glyphs file before ps) = damageFrom file before ps := by
  induction ps generalizing before with
  | nil => rfl
  | cons c ps ih =>
      rw [glyphs_cons]
      cases c with
      | char c => exact ih _
      | byte b => exact congrArg _ (ih _)

/-- All faults of a text, in the order in which they are noticed. -/
theorem lexemes_faults (file : String) (bytes : List UInt8) :
    (lexemes file bytes).flatMap (·.faults) =
      let gs := glyphs file [] (Utf8.pieces bytes)
      encodingFaults (gs.take 1) ++
        noticedFrom (Pos.behind file ((Utf8.pieces bytes).map (·.shown))) gs 0 := by
  rw [lexemes_eq]
  exact lexemesFrom_faults ..

theorem lexemes_damage (file : String) (bytes : List UInt8) :
    ((lexemes file bytes).flatMap (·.faults)).filter LexError.isDamage =
      damageFrom file [] (Utf8.pieces bytes) := by
  rw [lexemes_faults]
  dsimp only
  have hdamage : ∀ x ∈ encodingFaults ((glyphs file [] (Utf8.pieces bytes)).take 1),
      x.isDamage = true := fun x hx => by simp [LexError.isDamage, fault_of_encodingFaults x hx]
  rw [List.filter_append, List.filter_eq_self.2 hdamage, filter_damage, ← encodingFaults_append,
    ← List.drop_one, List.take_append_drop, encodingFaults_glyphs]

theorem lexemes_strays (file : String) (bytes : List UInt8) :
    ((lexemes file bytes).flatMap (·.faults)).filter LexError.isStray =
      (parts file bytes).filterMap Part.stray? := by
  rw [lexemes_faults]
  dsimp only
  have hdamage : ∀ x ∈ encodingFaults ((glyphs file [] (Utf8.pieces bytes)).take 1),
      ¬x.isStray = true := fun x hx => by simp [LexError.isStray, fault_of_encodingFaults x hx]
  rw [List.filter_append, List.filter_eq_nil_iff.2 hdamage, List.nil_append, filter_stray]
  rfl

theorem lexemes_seen (file : String) (bytes : List UInt8) :
    (lexemes file bytes).map Lexeme.seen =
      (parts file bytes).filterMap Part.seen? ++ [(Token.eof, LitKind.int, "", endMoved
        (Pos.behind file ((Utf8.pieces bytes).map (·.shown))) (Part.anyOpen (parts file bytes)))] := by
  rw [lexemes_eq]
  exact lexemesFrom_seen ..

end Scan

/-- A scanner that reads the parts of a text one token after the other. -/
structure Scanner.Reads (s : Scanner) (file : String) (parts : List Part) : Prop where
  /-- The tokens are those among the parts. -/
  tokens : (List.range (parts.filterMap Part.seen?).length).map (fun k => (s.lexeme k).seen) =
    parts.filterMap Part.seen?
  going : ∀ k < (parts.filterMap Part.seen?).length, (s.lexeme k).token ≠ .eof
  /-- Behind them the end of the text is found, however often one asks. -/
  ended : ∀ k ≥ (parts.filterMap Part.seen?).length, (s.lexeme k).token = .eof
  silent : ∀ k > (parts.filterMap Part.seen?).length, (s.lexeme k).faults = []
  /-- The reports of characters that start nothing are those of the stray parts. -/
  strays : ((List.range ((parts.filterMap Part.seen?).length + 1)).flatMap
    fun k => (s.lexeme k).faults).filter LexError.isStray = parts.filterMap Part.stray?
  /-- The reports of damage are those of the damaged bytes. -/
  damage : ((List.range ((parts.filterMap Part.seen?).length + 1)).flatMap
    fun k => (s.lexeme k).faults).filter LexError.isDamage =
      Scan.damageFrom file [] (parts.flatMap (·.pieces))

/-- Scanning comes to the end of every text and loses nothing on the way. -/
theorem scanning_loses_nothing (file : String) (bytes : List UInt8) : ∃ parts,
    Divides file bytes parts ∧ parts.flatMap (·.bytes) = bytes ∧
      (Scanner.start file bytes).Reads file parts ∧
      (List.range ((parts.filterMap Part.seen?).length + 1)).map (Scanner.start file bytes).lexeme =
        lexemes file bytes := by
  refine ⟨Scan.parts file bytes, parts_divide file bytes, (parts_divide file bytes).bytes, ?_⟩
  obtain ⟨n, hall, hgoing, hend, hbehind⟩ := (Scanner.start file bytes).exists_lexeme
  have hall : (List.range (n + 1)).map (Scanner.start file bytes).lexeme = lexemes file bytes := hall
  have hseen := lexemes_seen file bytes
  have hlength := congrArg List.length hseen
  rw [← hall, List.length_map, List.length_map, List.length_range, List.length_append,
    List.length_singleton] at hlength
  obtain rfl : n = ((Scan.parts file bytes).filterMap Part.seen?).length := Nat.succ.inj hlength
  refine ⟨⟨?_, hgoing, fun k hk => ?_, fun k hk => ?_, ?_, ?_⟩, hall⟩
  · rw [← hall, List.range_succ, List.map_append, List.map_append] at hseen
    have hinit := (List.append_inj' hseen rfl).1
    rwa [List.map_map] at hinit
  · rcases Nat.eq_or_lt_of_le hk with rfl | hk
    · exact hend
    · rw [hbehind k hk]
  · rw [hbehind k hk]
  · rw [← List.flatMap_map, hall, lexemes_strays]
  · rw [← List.flatMap_map, hall, lexemes_damage, Scan.parts, partsFrom_pieces]

end ClassLang

/-!
The places of tokens and faults. Each token is at the place of its first character: one line
for each line end before it, one column for each character since. The end of the text is where
it should be unless the text ends with an open escape, the backslash of which is read together
with the end; then the end, and the report that the literal has none, are one column further.
-/

namespace ClassLang

open Scan

namespace Scan

variable {file : String} {bytes : List UInt8}

/-- The characters of a text that is divided into parts. -/
theorem Divides.chars {parts : List Part} (h : Divides file bytes parts) :
    (Utf8.pieces bytes).map (·.shown) = parts.flatMap (·.chars) := by
  rw [(Utf8.cut_pieces bytes).unique h.cut, List.map_flatMap]
  rfl

/-- No more characters than bytes. -/
theorem length_chars_le (bytes : List UInt8) :
    ((Utf8.pieces bytes).map (·.shown)).length ≤ bytes.length := by
  rw [List.length_map]
  exact (Utf8.cut_pieces bytes).length_le

theorem endMoved_before {p eof : Pos} (opens : Bool) (h : p.Before eof) :
    p.Before (endMoved eof opens) := by
  cases opens with
  | false => exact h
  | true => exact h.trans (Pos.before_beyond eof)

/-- The parts come one after the other, and before the end of the text. -/
theorem Divides.ordered {parts : List Part} (h : Divides file bytes parts) (opens : Bool) :
    (parts.map (·.pos) ++ [endMoved (Pos.behind file (parts.flatMap (·.chars))) opens]).Pairwise
      Pos.Before := by
  suffices hgeneral : ∀ done rest : List Part, parts = done ++ rest →
      (rest.map (·.pos) ++ [endMoved (Pos.behind file (parts.flatMap (·.chars))) opens]).Pairwise
        Pos.Before from hgeneral [] parts rfl
  intro done rest hparts
  induction rest generalizing done with
  | nil => exact List.pairwise_singleton ..
  | cons p rest ih =>
      have hne : p.chars ≠ [] := (h.shapes p (by simp [hparts])).ne_nil
      have hlater : ∀ cs, p.pos.Before
          (Pos.behind file (done.flatMap (·.chars) ++ (p.chars ++ cs))) := fun cs =>
        h.places done p rest hparts ▸
          Pos.before_behind file _ fun hnil => hne (List.append_eq_nil_iff.1 hnil).1
      rw [List.map_cons, List.cons_append, List.pairwise_cons]
      refine ⟨fun q hq => ?_, ih (done ++ [p]) (by rw [hparts, List.append_assoc]; rfl)⟩
      rcases List.mem_append.1 hq with hpart | hend
      · obtain ⟨r, hr, rfl⟩ := List.mem_map.1 hpart
        obtain ⟨mid, later, rfl⟩ := List.append_of_mem hr
        rw [h.places (done ++ p :: mid) r later (by rw [hparts, List.append_assoc]; rfl),
          List.flatMap_append, List.flatMap_cons]
        exact hlater _
      · rw [List.mem_singleton.1 hend, hparts, List.flatMap_append, List.flatMap_cons]
        exact endMoved_before opens (hlater _)

/-- The tokens are among the parts. -/
theorem seen_sublist (parts : List Part) :
    ((parts.filterMap Part.seen?).map (·.2.2.2)).Sublist (parts.map (·.pos)) := by
  induction parts with
  | nil => exact List.Sublist.refl _
  | cons p parts ih =>
      rw [List.filterMap_cons, List.map_cons]
      cases hseen : p.seen? with
      | none => exact ih.cons _
      | some x =>
          have hpos : x.2.2.2 = p.pos := by
            unfold Part.seen? at hseen
            split at hseen <;> cases hseen
            rfl
          rw [List.map_cons, hpos]
          exact ih.cons_cons _

/-- A fault is at a character or at the end of the text, or the text ends with an open escape. -/
theorem lexemes_fault_places (file : String) (bytes : List UInt8) :
    let cs := (Utf8.pieces bytes).map (·.shown)
    ∀ x ∈ (lexemes file bytes).flatMap (·.faults),
      (∃ before after, cs = before ++ after ∧ x.pos = Pos.behind file before) ∨
        Part.anyOpen (parts file bytes) = true ∧ x = ⟨(Pos.behind file cs).beyond, .unterminated⟩ := by
  intro cs x hx
  have hglyph : ∀ g ∈ glyphs file [] (Utf8.pieces bytes),
      ∃ before after, cs = before ++ after ∧ g.pos = Pos.behind file before :=
    fun g hg => exists_behind hg
  rw [lexemes_faults] at hx
  rcases List.mem_append.1 hx with hdamage | hnoticed
  · obtain ⟨g, hg, rfl⟩ := List.mem_map.1 hdamage
    exact Or.inl (hglyph g (List.mem_of_mem_take (List.mem_filter.1 hg).1))
  · refine (noticedFrom_places _ [] _ x hnoticed).imp_left fun hmem => ?_
    rcases List.mem_cons.1 hmem with heof | hmem
    · exact ⟨cs, [], (List.append_nil _).symm, heof⟩
    · obtain ⟨g, hg, hpos⟩ := List.mem_map.1 hmem
      exact hpos ▸ hglyph g hg

end Scan

/-- The places of the tokens and the faults of a text that is divided into parts. -/
structure Placed (file : String) (bytes : List UInt8) (parts : List Part) : Prop where
  divides : Divides file bytes parts
  /-- Each token is where its part starts; the end of the text is behind all characters, and one
  column further if the text ends with an open escape. -/
  tokens : (lexemes file bytes).map Lexeme.seen =
    parts.filterMap Part.seen? ++ [(.eof, .int, "",
      endMoved (Pos.behind file (parts.flatMap (·.chars))) (Part.anyOpen parts))]
  increasing : ((lexemes file bytes).map (·.pos)).Pairwise Pos.Before
  faults : ∀ x ∈ (lexemes file bytes).flatMap (·.faults),
    (∃ before after, parts.flatMap (·.chars) = before ++ after ∧ x.pos = Pos.behind file before) ∨
      Part.anyOpen parts = true ∧
        x = ⟨(Pos.behind file (parts.flatMap (·.chars))).beyond, .unterminated⟩
  /-- Neither lines nor columns leave the range of 32 bits. -/
  small : ∀ p ∈ (lexemes file bytes).map (·.pos) ++
      ((lexemes file bytes).flatMap (·.faults)).map (·.pos), p.line < 2 ^ 32 ∧ p.col < 2 ^ 32

theorem Scan.pos_small {file : String} {cs : List Char} {n : Nat} {p : Pos}
    (h : (∃ before after, cs = before ++ after ∧ p = Pos.behind file before) ∨
      p = (Pos.behind file cs).beyond) (hcs : cs.length ≤ n) :
    p.line ≤ n + 2 ∧ p.col ≤ n + 2 := by
  rcases h with ⟨before, after, rfl, rfl⟩ | rfl
  · have hle := Pos.behind_le file before
    rw [List.length_append] at hcs
    omega
  · have hle := Pos.behind_le file cs
    dsimp only [Pos.beyond]
    omega

/-- All places of a text are exact, but for those behind an open escape at its end. -/
theorem token_places_exact (file : String) (bytes : List UInt8) (h : bytes.length < 2 ^ 32 - 2) :
    ∃ parts, Placed file bytes parts := by
  have hdivides := parts_divide file bytes
  have hchars := hdivides.chars
  have hseen := lexemes_seen file bytes
  have hfaults := lexemes_fault_places file bytes
  have hlength := length_chars_le bytes
  rw [hchars] at hseen hlength
  dsimp only at hfaults
  rw [hchars] at hfaults
  have hpos : (lexemes file bytes).map (·.pos) =
      ((Scan.parts file bytes).filterMap Part.seen?).map (·.2.2.2) ++
        [endMoved (Pos.behind file ((Scan.parts file bytes).flatMap (·.chars)))
          (Part.anyOpen (Scan.parts file bytes))] := by
    have hmap := congrArg (List.map (·.2.2.2)) hseen
    rwa [List.map_map, List.map_append, List.map_singleton] at hmap
  refine ⟨Scan.parts file bytes, hdivides, hseen, ?_, hfaults, fun p hp => ?_⟩
  · rw [hpos]
    exact (hdivides.ordered _).sublist ((seen_sublist _).append (List.Sublist.refl _))
  · have hplace : (∃ before after, (Scan.parts file bytes).flatMap (·.chars) = before ++ after ∧
        p = Pos.behind file before) ∨
          p = (Pos.behind file ((Scan.parts file bytes).flatMap (·.chars))).beyond := by
      rcases List.mem_append.1 hp with htoken | hfault
      · rw [hpos] at htoken
        rcases List.mem_append.1 htoken with hpart | hend
        · obtain ⟨q, hq, rfl⟩ := List.mem_map.1 ((seen_sublist _).subset hpart)
          obtain ⟨front, back, hparts⟩ := List.append_of_mem hq
          refine Or.inl ⟨_, (q :: back).flatMap (·.chars), ?_, hdivides.places front q back hparts⟩
          rw [hparts, List.flatMap_append]
        · rw [List.mem_singleton.1 hend, endMoved]
          split
          · exact Or.inr rfl
          · exact Or.inl ⟨_, [], (List.append_nil _).symm, rfl⟩
      · obtain ⟨x, hx, rfl⟩ := List.mem_map.1 hfault
        exact (hfaults x hx).imp_right fun ⟨_, hx⟩ => by rw [hx]
    have hsmall := pos_small hplace hlength
    omega

/-- A name and a blank. -/
theorem token_places_name : ([0x61, 0x20] : List UInt8).length < 2 ^ 32 - 2 ∧
    ∃ parts, Placed "t.kya" [0x61, 0x20] parts :=
  ⟨by decide, token_places_exact "t.kya" [0x61, 0x20] (by decide)⟩

/-- The end of the text that consists of a quote and a backslash, and the report that the literal
does not end, are one column behind the end. -/
theorem openEscape_end_misplaced :
    ((lexemes "t.kya" [0x22, 0x5C]).map fun l => (l.token, l.pos)) =
      [(.literal, ⟨"t.kya", 1, 1⟩), (.eof, ⟨"t.kya", 1, 4⟩)] ∧
    (lexemes "t.kya" [0x22, 0x5C]).flatMap (·.faults) =
      [⟨⟨"t.kya", 1, 3⟩, .badEscape Utf8.replacement⟩, ⟨⟨"t.kya", 1, 4⟩, .unterminated⟩] ∧
    Pos.behind "t.kya" ((Utf8.pieces [0x22, 0x5C]).map (·.shown)) = ⟨"t.kya", 1, 3⟩ := by
  exact ⟨by decide +kernel, by cbv, by decide +kernel⟩

end ClassLang

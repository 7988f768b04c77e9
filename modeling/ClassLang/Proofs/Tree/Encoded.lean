import ClassLang.Proofs.Text.Utf8
import ClassLang.Tree.Parse

/-!
Texts given by their characters. No character of an encoded text is damaged, so its
lexemes and its tree are those of the characters as they stand.
-/

namespace ClassLang

namespace Scan

theorem encodingFaults_eq_nil {gs : List Glyph} (h : ∀ g ∈ gs, g.wellFormed = true) :
    encodingFaults gs = [] := by
  have hnone : gs.filter (!·.wellFormed) = [] :=
    List.filter_eq_nil_iff.2 fun g hg => by simp [h g hg]
  rw [encodingFaults, hnone, List.map_nil]

theorem noticed_of_wellFormed {p : Piece} {gs : List Glyph} (h : ∀ g ∈ gs, g.wellFormed = true) :
    noticed p gs = p.faults := by
  have htail : ∀ g ∈ gs.tail.take p.size, g.wellFormed = true :=
    fun g hg => h g (List.mem_of_mem_tail (List.mem_of_mem_take hg))
  rw [noticed, encodingFaults_eq_nil htail, List.nil_merge]

/-- The lexemes of glyphs of which none is damaged. The faults of a piece are its own, so nothing
is merged and a closed text can be read by evaluation. -/
def lexemesFromIntact (eof : Pos) (pending : List LexError) : List Glyph → Nat → List Lexeme
  | [], _ => [⟨.eof, "", .int, eof, pending⟩]
  | _ :: rest, skip + 1 => lexemesFromIntact eof pending rest skip
  | g :: rest, 0 =>
    let p := first eof g rest
    let faults := pending ++ p.faults
    match p.kind with
    | .lexeme token kind text =>
      ⟨token, text, kind, g.pos, faults⟩ :: lexemesFromIntact p.eof [] rest (p.size - 1)
    | _ => lexemesFromIntact p.eof faults rest (p.size - 1)

theorem lexemesFrom_of_wellFormed (eof : Pos) (pending : List LexError) {gs : List Glyph}
    (skip : Nat) (h : ∀ g ∈ gs, g.wellFormed = true) :
    lexemesFrom eof pending gs skip = lexemesFromIntact eof pending gs skip := by
  induction gs generalizing eof pending skip with
  | nil => rfl
  | cons g rest ih =>
      have hrest : ∀ x ∈ rest, x.wellFormed = true := fun x hx => h x (List.mem_cons_of_mem g hx)
      cases skip with
      | succ skip => exact ih eof pending skip hrest
      | zero =>
          cases hkind : (first eof g rest).kind <;>
            simp only [lexemesFrom, lexemesFromIntact, noticed_of_wellFormed h, hkind,
              ih _ _ _ hrest]

end Scan

theorem Glyph.wellFormed_of_place (pos : Pos) (cs : List Char) :
    ∀ g ∈ Glyph.place pos (cs.map fun c => ⟨c, true⟩), g.wellFormed = true := by
  induction cs generalizing pos with
  | nil => simp [Glyph.place]
  | cons c cs ih => simpa [Glyph.place] using ih (pos.after c)

/-- The lexemes of a text given by its characters. -/
def lexemesOf (file : String) (text : List Char) : List Lexeme :=
  let runes := text.map fun c => ⟨c, true⟩
  let start := Pos.start file
  Scan.lexemesFromIntact (Glyph.endOf start runes) [] (Glyph.place start runes) 0

theorem lexemesOf_eq (file : String) (text : List Char) :
    lexemesOf file text =
      Scan.lexemesFrom (Glyph.endOf (Pos.start file) (text.map fun c => ⟨c, true⟩)) []
        (Glyph.place (Pos.start file) (text.map fun c => ⟨c, true⟩)) 0 :=
  (Scan.lexemesFrom_of_wellFormed _ _ _ (Glyph.wellFormed_of_place (Pos.start file) text)).symm

theorem lexemes_encode (file text : String) :
    lexemes file text.toUTF8.toList = lexemesOf file text.toList := by
  have hrunes : Utf8.runes text.toUTF8.toList = text.toList.map fun c => ⟨c, true⟩ :=
    Utf8.runes_encode text
  have hnone : Scan.encodingFaults ((Glyph.place (Pos.start file)
      (text.toList.map fun c => ⟨c, true⟩)).take 1) = [] := by
    cases text.toList <;> rfl
  simp only [lexemes, lexemesOf_eq, hrunes, hnone]

/-- Parses a text given by its characters. -/
def parseText (name : String) (text : List Char) : Parsed :=
  let ls := lexemesOf name text
  let p := Parse.start ls
  (((Parse.decls (Parse.fuelFor ls.length)).run p).map fun (decls, q) =>
    Parsed.ofRun name p decls q).getD (Parsed.ofRun name p [] p)

theorem parseFile_encode (name text : String) :
    parseFile name text.toUTF8.toList = parseText name text.toList := by
  simp only [parseFile, parse?, parseText, lexemes_encode]

/-- A literal is the string of its characters, so that nothing is decoded when such a text is
evaluated. -/
theorem parseFile_ofList (name : String) (cs : List Char) :
    parseFile name (String.ofList cs).toUTF8.toList = parseText name cs := by
  rw [parseFile_encode, String.toList_ofList]

end ClassLang

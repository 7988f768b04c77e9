import ClassLang.Source.Position
import ClassLang.Text.Quoted
import ClassLang.Text.Utf8
import ClassLang.Token

/-!
From characters to tokens. The text is cut into pieces without a gap: lexemes,
runs of blanks, comments, and single characters that start nothing. The
lexemes among the pieces are the tokens of the text.

Faults are collected on the way. A damaged character is noticed as soon as the
piece before it has been read, because that piece looks at it to find its own
end; so each lexeme carries the faults noticed since the lexeme before.
-/

namespace ClassLang

/-- A character of the source with its place. -/
structure Glyph where
  char : Char
  wellFormed : Bool
  pos : Pos
  deriving DecidableEq, Repr, Inhabited

namespace Glyph

/-- The characters of a text with their places, the first at `pos`. -/
def place : Pos → List Utf8.Rune → List Glyph
  | _, [] => []
  | pos, r :: rest => ⟨r.char, r.wellFormed, pos⟩ :: place (pos.after r.char) rest

/-- The place behind the last character of a text that starts at `pos`. -/
def endOf : Pos → List Utf8.Rune → Pos
  | pos, [] => pos
  | pos, r :: rest => endOf (pos.after r.char) rest

/-- The place of the first glyph, or the end of the text. -/
def headPos (eof : Pos) : List Glyph → Pos
  | [] => eof
  | g :: _ => g.pos

end Glyph

/-- What can be wrong with the characters of a text. -/
inductive LexFault where
  | badEncoding
  | unexpected (c : Char)
  | loneAmpersand
  | loneBar
  | noHexDigit
  | noExponent
  | unterminated
  | badEscape (c : Char)
  deriving DecidableEq, Repr

/-- The wording of a lexical fault. -/
def LexFault.message : LexFault → String
  | .badEncoding => "invalid UTF-8 encoding"
  | .unexpected c => "unexpected character " ++ Text.quoteChar c
  | .loneAmpersand => "unexpected character '&'; did you mean &&?"
  | .loneBar => "unexpected character '|'; did you mean ||?"
  | .noHexDigit => "invalid hex digit"
  | .noExponent => "exponent has no digits"
  | .unterminated => "string not terminated"
  | .badEscape c => "unknown escape sequence: \\" ++ String.singleton c

/-- A lexical fault at its place. -/
structure LexError where
  pos : Pos
  fault : LexFault
  deriving DecidableEq, Repr

/-- A token with its spelling. `text` is the decoded contents of a string
literal and the characters themselves for any other token; `faults` are those
noticed since the lexeme before. -/
structure Lexeme where
  token : Token
  text : String
  kind : LitKind
  pos : Pos
  faults : List LexError
  deriving Repr, Inhabited

namespace Scan

/-- Letters are those of ASCII and the underscore. -/
def isLetter (c : Char) : Bool :=
  ('a' ≤ c && c ≤ 'z') || ('A' ≤ c && c ≤ 'Z') || c = '_'

/-- The ten decimal digits. -/
def isDigit (c : Char) : Bool := '0' ≤ c && c ≤ '9'

/-- The sixteen hexadecimal digits, in either case. -/
def isHexDigit (c : Char) : Bool :=
  isDigit c || ('a' ≤ c && c ≤ 'f') || ('A' ≤ c && c ≤ 'F')

/-- Characters that only separate tokens. -/
def isBlank (c : Char) : Bool := c = ' ' || c = '\t' || c = '\r' || c = '\n'

/-- What a piece of the text is. -/
inductive Kind where
  | blank
  | comment
  | junk
  | lexeme (token : Token) (kind : LitKind) (text : String)
  deriving Repr

/-- A piece of the text: what it is, how many glyphs it covers, the faults
found while reading it, and where the text ends as far as the reader knows. -/
structure Piece where
  kind : Kind
  size : Nat
  faults : List LexError := []
  eof : Pos
  deriving Repr

/-- The glyphs of `gs` up to the first that fails `p`. -/
def run (p : Char → Bool) (gs : List Glyph) : List Glyph :=
  gs.takeWhile (p ·.char)

/-- The spelling of a list of glyphs. -/
def spelling (gs : List Glyph) : String := String.ofList (gs.map (·.char))

/-- The fraction of a number: a point that a digit follows, and its digits. -/
def fraction : List Glyph → List Glyph
  | point :: digit :: rest =>
    if point.char = '.' && isDigit digit.char then
      point :: digit :: run isDigit rest
    else []
  | _ => []

/-- The sign of an exponent. -/
def sign : List Glyph → List Glyph
  | g :: _ => if g.char = '+' || g.char = '-' then [g] else []
  | [] => []

/-- The exponent of a number: its mark, an optional sign, and digits, of which
there should be one. -/
def exponent (eof : Pos) : List Glyph → List Glyph × List LexError
  | mark :: rest =>
    if mark.char = 'e' || mark.char = 'E' then
      let s := sign rest
      let rest := rest.drop s.length
      let digits := run isDigit rest
      (mark :: (s ++ digits),
        if digits.isEmpty then [⟨Glyph.headPos eof rest, .noExponent⟩] else [])
    else ([], [])
  | [] => ([], [])

/-- A number that starts with the digit at the head of `gs`. -/
def number (eof : Pos) (gs : List Glyph) : Piece :=
  let whole := run isDigit gs
  let rest := gs.drop whole.length
  let frac := fraction rest
  let (exp, faults) := exponent eof (rest.drop frac.length)
  let taken := whole ++ frac ++ exp
  let kind := if frac.isEmpty && exp.isEmpty then LitKind.int else .float
  { kind := .lexeme .literal kind (spelling taken), size := taken.length, faults, eof }

/-- A hexadecimal number, whose mark is the pair `zero`, `x`. -/
def hexNumber (eof : Pos) (zero x : Glyph) (rest : List Glyph) : Piece :=
  let digits := run isHexDigit rest
  let taken := zero :: x :: digits
  { kind := .lexeme .literal .int (spelling taken)
    size := taken.length
    faults := if digits.isEmpty then [⟨Glyph.headPos eof rest, .noHexDigit⟩] else []
    eof }

/-- The character that an escape stands for. -/
def unescape : Char → Option Char
  | 'n' => some '\n'
  | 't' => some '\t'
  | 'r' => some '\r'
  | '\\' => some '\\'
  | '"' => some '"'
  | '0' => some '\x00'
  | _ => none

/-- The rest of a string literal: its characters, how many glyphs it covers,
its faults, and where the text ends. A backslash that is the last character of
the text is read together with the end of the text, which moves the end by
one column. -/
def stringBody (eof : Pos) : List Glyph → List Char × Nat × List LexError × Pos
  | [] => ([], 0, [⟨eof, .unterminated⟩], eof)
  | g :: rest =>
    if g.char = '"' then ([], 1, [], eof)
    else if g.char = '\n' then ([], 0, [⟨g.pos, .unterminated⟩], eof)
    else if g.char = '\\' then
      match rest with
      | [] =>
        let past := { eof with col := eof.col + 1 }
        ([], 1, [⟨eof, .badEscape Utf8.replacement⟩, ⟨past, .unterminated⟩], past)
      | e :: rest =>
        let (chars, size, faults, last) := stringBody eof rest
        match unescape e.char with
        | some c => (c :: chars, size + 2, faults, last)
        | none => (chars, size + 2, ⟨e.pos, .badEscape e.char⟩ :: faults, last)
    else
      let (chars, size, faults, last) := stringBody eof rest
      (g.char :: chars, size + 1, faults, last)

/-- A string literal, after its opening quote. -/
def string (eof : Pos) (rest : List Glyph) : Piece :=
  let (chars, size, faults, last) := stringBody eof rest
  { kind := .lexeme .literal .string (String.ofList chars), size := size + 1, faults, eof := last }

/-- The token of one character that never starts a longer operator. -/
def single : Char → Option Token
  | '+' => some .add
  | '-' => some .sub
  | '*' => some .mul
  | '/' => some .div
  | '%' => some .rem
  | ':' => some .colon
  | '(' => some .lparen
  | ')' => some .rparen
  | '[' => some .lbrack
  | ']' => some .rbrack
  | '\x7b' => some .lbrace
  | '\x7d' => some .rbrace
  | ',' => some .comma
  | ';' => some .semi
  | '.' => some .dot
  | '<' => some .lss
  | '>' => some .gtr
  | '=' => some .assign
  | '!' => some .not
  | _ => none

/-- The operators of two characters. -/
def double : Char → Char → Option Token
  | '<', '=' => some .leq
  | '>', '=' => some .geq
  | '=', '=' => some .eql
  | '!', '=' => some .neq
  | '&', '&' => some .andAnd
  | '|', '|' => some .orOr
  | _, _ => none

/-- The piece of an operator of `size` characters. -/
def operator (eof : Pos) (token : Token) (size : Nat) (faults : List LexError) : Piece :=
  { kind := .lexeme token .int token.text, size, faults, eof }

/-- The operator, comment or stray character that starts with `g`. Half of a
logical connective is reported and taken for the whole. -/
def symbol (eof : Pos) (g : Glyph) (rest : List Glyph) : Piece :=
  let next := rest.head?.map (·.char)
  if g.char = '/' && next = some '/' then
    { kind := .comment, size := 1 + (run (· ≠ '\n') rest).length, eof }
  else
    match next.bind (double g.char) with
    | some token => operator eof token 2 []
    | none =>
      if g.char = '&' then
        operator eof .andAnd 1 [⟨Glyph.headPos eof rest, .loneAmpersand⟩]
      else if g.char = '|' then
        operator eof .orOr 1 [⟨Glyph.headPos eof rest, .loneBar⟩]
      else
        match single g.char with
        | some token => operator eof token 1 []
        | none => { kind := .junk, size := 1, faults := [⟨g.pos, .unexpected g.char⟩], eof }

/-- The piece at the head of `g :: rest`. -/
def first (eof : Pos) (g : Glyph) (rest : List Glyph) : Piece :=
  if isBlank g.char then
    { kind := .blank, size := 1 + (run isBlank rest).length, eof }
  else if isLetter g.char then
    let word := g :: run (fun c => isLetter c || isDigit c) rest
    let text := spelling word
    { kind := .lexeme (Token.ofWord text) .int text, size := word.length, eof }
  else if isDigit g.char then
    match rest with
    | x :: more =>
      if g.char = '0' && (x.char = 'x' || x.char = 'X') then hexNumber eof g x more
      else number eof (g :: rest)
    | [] => number eof [g]
  else if g.char = '"' then string eof rest
  else symbol eof g rest

/-- The damaged glyphs of a list, each as a fault. -/
def encodingFaults (gs : List Glyph) : List LexError :=
  (gs.filter (!·.wellFormed)).map fun g => ⟨g.pos, .badEncoding⟩

/-- The faults noticed while the piece `p` at the head of `gs` is read: its own
and those of the damaged glyphs behind its first, up to the glyph after it. At
one place the damage is noticed first. -/
def noticed (p : Piece) (gs : List Glyph) : List LexError :=
  (encodingFaults (gs.tail.take p.size)).merge p.faults (fun a b => a.pos.le b.pos)

/-- The lexemes of a text. `skip` glyphs still belong to the piece before, and
`pending` are the faults noticed since the last lexeme. -/
def lexemesFrom (eof : Pos) (pending : List LexError) : List Glyph → Nat → List Lexeme
  | [], _ => [⟨.eof, "", .int, eof, pending⟩]
  | _ :: rest, skip + 1 => lexemesFrom eof pending rest skip
  | g :: rest, 0 =>
    let p := first eof g rest
    let faults := pending ++ noticed p (g :: rest)
    match p.kind with
    | .lexeme token kind text =>
      ⟨token, text, kind, g.pos, faults⟩ :: lexemesFrom p.eof [] rest (p.size - 1)
    | _ => lexemesFrom p.eof faults rest (p.size - 1)

end Scan

/-- The lexemes of a text, the last of them the end of the text. -/
def lexemes (file : String) (bytes : List UInt8) : List Lexeme :=
  let runes := Utf8.runes bytes
  let start := Pos.start file
  let glyphs := Glyph.place start runes
  Scan.lexemesFrom (Glyph.endOf start runes) (Scan.encodingFaults (glyphs.take 1)) glyphs 0

end ClassLang

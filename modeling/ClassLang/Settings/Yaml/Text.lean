import ClassLang.Number.Word

/-!
Texts in a YAML document: without quotes, in quotes, and as blocks of lines. A
text may go on over several lines; a single line break in it becomes a blank, and
of several line breaks the first is left out.
-/

namespace ClassLang.Settings.Yaml

/-! Characters -/

/-- Whether a character is a blank. -/
def isBlank (c : Char) : Bool := c = ' ' || c = '\t'

/-- Whether a character ends a line. -/
def isBreak (c : Char) : Bool :=
  c = '\n' || c = '\r' || c = '\u0085' || c = '\u2028' || c = '\u2029'

/-- Whether a character may stand in a document. -/
def isAllowed (c : Char) : Bool :=
  let n := c.toNat
  n = 0x09 || n = 0x0A || n = 0x0D || (0x20 ≤ n && n ≤ 0x7E) || n = 0x85
    || (0xA0 ≤ n && n ≠ 0xFFFE && n ≠ 0xFFFF)

/-- Whether a character may stand in a name. -/
def isNameChar (c : Char) : Bool := c.isAlphanum || c = '_' || c = '-'

/-- Whether a word ends before a character, or before the end of the document. -/
def endsWord (c : Option Char) : Bool := c.all fun c => isBlank c || isBreak c

/-- Whether a line ends before a character, or before the end of the document. -/
def endsLine (c : Option Char) : Bool := c.all isBreak

/-- The byte order mark. -/
def byteOrderMark : Char := '\ufeff'

/-- The number of bytes that are read at once. -/
def pieceSize : Nat := 512

/-- The numbers of characters before the ends of the pieces that a document is read
in. A piece has as many characters as there is room for. -/
def pieceEnds (room before : Nat) : List Char → List Nat
  | [] => [before]
  | c :: rest =>
    if c.utf8Size ≤ room then pieceEnds (room - c.utf8Size) (before + 1) rest
    else before :: pieceEnds (pieceSize - c.utf8Size) (before + 1) rest

/-- A place in a document: what follows it, and its line and column. The document
is seen through a window that starts with the character `window`, goes up to the
number `horizon` of characters, and holds `past` marks behind the end of the
document. `ends` are the ends of the pieces behind the window. If the document is
not `whole`, characters follow that may not stand in one; it is `broken` when they
have been seen. -/
structure Cursor where
  rest : List Char
  index : Nat := 0
  line : Nat := 0
  col : Nat := 0
  window : Option Char := none
  past : Nat := 0
  horizon : Nat
  ends : List Nat
  whole : Bool := true
  broken : Bool := false

namespace Cursor

/-- The start of a document, unless its first piece has characters that may not stand
in one. A byte order mark does not belong to the document, and behind a document of
less than three bytes there is a mark. -/
def start? (text : String) : Option Cursor :=
  let marked := text.toList.head? = some byteOrderMark
  let rest := if marked then text.toList.tail else text.toList
  let room := if marked then pieceSize - byteOrderMark.utf8Size else pieceSize
  let allowed := (rest.takeWhile isAllowed).length
  match (pieceEnds room 0 rest).filter (· ≤ allowed) with
  | [] => none
  | horizon :: ends => some
    { rest, horizon, ends
      window := rest.head?
      past := if text.utf8ByteSize < 3 then 1 else 0
      whole := allowed = rest.length }

/-- The next character. -/
def peek (c : Cursor) : Option Char := c.rest.head?

/-- The character `n` places behind the next one. -/
def ahead (c : Cursor) (n : Nat) : Option Char := c.rest[n]?

/-- Looks at the next `n` characters. If the window shows fewer, it is moved to
this place and goes up to the end of another piece, or one more mark is put behind
the end of the document. -/
def need (c : Cursor) (n : Nat) : Cursor :=
  if n ≤ c.horizon - c.index + c.past then c
  else
    let c := { c with window := c.rest.head? }
    match c.ends.dropWhile (· < c.index + n) with
    | horizon :: ends => { c with horizon, ends }
    | [] => { c with
      horizon := c.ends.getLast?.getD c.horizon
      ends := []
      past := c.past + 1
      broken := !c.whole }

/-- The place behind `n` characters of the line. -/
def skip (c : Cursor) (n : Nat) : Cursor :=
  { c with rest := c.rest.drop n, index := c.index + n, col := c.col + n }

/-- The place behind one character, or behind one mark at the end. -/
def skipAny (c : Cursor) : Cursor :=
  { c.skip 1 with past := if c.rest.isEmpty then c.past - 1 else c.past }

/-- The place behind `count` characters of the line, with a look at the next `n`
behind each. -/
def pass (n : Nat) : Nat → Cursor → Cursor
  | 0, c => c
  | count + 1, c => pass n count ((c.skip 1).need n)

/-- The place behind the characters of the line that have a property, with a look
at the next character before each. -/
def skipWhile (c : Cursor) (p : Char → Bool) : Cursor :=
  (c.need 1).pass 1 (c.rest.takeWhile p).length

/-- Looks at the next `first + 1` to `first + count` characters. -/
def needEach (first : Nat) : Nat → Cursor → Cursor
  | 0, c => c
  | count + 1, c => needEach (first + 1) count (c.need (first + 1))

/-- The start of the next line. -/
def nextLine (c : Cursor) : Cursor :=
  let n := if c.rest.take 2 = ['\r', '\n'] then 2 else 1
  { c.need 2 with rest := c.rest.drop n, index := c.index + n, line := c.line + 1, col := 0 }

/-- What the line break that comes next adds to a text. -/
def breakChar (c : Cursor) : Char :=
  match c.peek with
  | some '\u2028' => '\u2028'
  | some '\u2029' => '\u2029'
  | _ => '\n'

/-- Whether a line starts here that separates documents. -/
def atSeparator (c : Cursor) : Bool :=
  c.col = 0 && (c.rest.take 3 = ['-', '-', '-'] || c.rest.take 3 = ['.', '.', '.'])
    && endsWord (c.ahead 3)

end Cursor

/-! Gaps between words -/

/-- The blanks and line breaks between two words of a text. `folds` tells whether
the line ends in them; the first line break is kept apart from the others. -/
structure Gap where
  blanks : List Char := []
  first : Option Char := none
  others : List Char := []
  folds : Bool := false

namespace Gap

/-- What a gap adds to a text. -/
def text (g : Gap) : List Char :=
  if !g.folds then g.blanks
  else if g.first = some '\n' then if g.others.isEmpty then [' '] else g.others
  else g.first.toList ++ g.others

/-- A gap with one more line break. -/
def addBreak (g : Gap) (c : Char) : Gap :=
  if g.folds then { g with others := g.others ++ [c] } else { first := some c, folds := true }

/-- A gap with the blanks and line breaks that come next, and the place behind
them. At the start of a line there is no tab before the column `indent`. -/
def extend (indent : Nat) : Nat → Gap → Cursor → Option (Gap × Cursor)
  | 0, _, _ => none
  | fuel + 1, g, c =>
    match c.peek with
    | none => some (g, c)
    | some ch =>
      if isBlank ch then
        if g.folds && ch = '\t' && c.col < indent then none
        else extend indent fuel (if g.folds then g else { g with blanks := g.blanks ++ [ch] })
          ((c.skip 1).need 1)
      else if isBreak ch then extend indent fuel (g.addBreak c.breakChar) (c.nextLine.need 1)
      else some (g, c)

end Gap

/-! Texts without quotes -/

/-- Whether a character ends a word in brackets or braces. -/
def endsItem (c : Char) : Bool :=
  c = ',' || c = '?' || c = '[' || c = ']' || c = '\x7b' || c = '\x7d'

/-- The number of characters of a word that is not in quotes. -/
def wordLength (inFlow : Bool) : List Char → Nat
  | [] => 0
  | c :: rest =>
    if isBlank c || isBreak c || (c = ':' && endsWord rest.head?) || (inFlow && endsItem c) then 0
    else wordLength inFlow rest + 1

/-- The text without quotes that goes on here, whether the line has ended in it,
and the place behind it. Outside brackets and braces its lines start at the column
`indent` at least. -/
def plain (inFlow : Bool) (indent : Nat) :
    Nat → List Char → Gap → Cursor → Option (List Char × Bool × Cursor)
  | 0, _, _, _ => none
  | fuel + 1, text, g, c =>
    let c := c.need 4
    if c.atSeparator || c.peek = some '#' then some (text, g.folds, c)
    else
      let n := wordLength inFlow c.rest
      let text := if n = 0 then text else text ++ g.text ++ c.rest.take n
      let g := if n = 0 then g else {}
      let c := c.pass 2 n
      if c.peek.all fun ch => !(isBlank ch || isBreak ch) then some (text, g.folds, c)
      else do
        let (g, c) ← g.extend indent (c.rest.length + 1) (c.need 1)
        if !inFlow && c.col < indent then return (text, g.folds, c)
        else plain inFlow indent fuel text g c

/-! Texts in quotes -/

/-- The character that a letter behind a backslash stands for. -/
def escapeLetter? : Char → Option Char
  | '0' => some '\x00'
  | 'a' => some '\x07'
  | 'b' => some '\x08'
  | 't' | '\t' => some '\t'
  | 'n' => some '\n'
  | 'v' => some '\x0B'
  | 'f' => some '\x0C'
  | 'r' => some '\r'
  | 'e' => some '\x1B'
  | ' ' => some ' '
  | '"' => some '"'
  | '\'' => some '\''
  | '\\' => some '\\'
  | 'N' => some '\u0085'
  | '_' => some '\u00a0'
  | 'L' => some '\u2028'
  | 'P' => some '\u2029'
  | _ => none

/-- The character with a number of `n` hexadecimal digits. -/
def hexChar? (n : Nat) (cs : List Char) : Option Char := do
  let digits := cs.take n
  if digits.length < n then none
  else
    let x ← digits.foldlM (fun x c => (Number.digitValue? c).bind fun d =>
      if d < 16 then some (16 * x + d) else none) 0
    if h : x.isValidChar then some (Char.ofNatAux x h) else none

/-- How many hexadecimal digits follow a letter behind a backslash. -/
def escapeDigits : Char → Nat
  | 'x' => 2
  | 'u' => 4
  | 'U' => 8
  | _ => 0

/-- The character that an escape stands for, and the place behind it. -/
def escape? (c : Cursor) : Option (Char × Cursor) := do
  let letter ← c.ahead 1
  let c := c.skip 2
  match escapeDigits letter with
  | 0 => return (← escapeLetter? letter, c)
  | n => return (← hexChar? n c.rest, (c.need n).skip n)

/-- A word in quotes, whether it ends in an escaped line break, and the place
behind it. -/
def quotedWord (quote : Char) : Nat → Cursor → Option (List Char × Bool × Cursor)
  | 0, _ => none
  | fuel + 1, c =>
    match c.rest with
    | [] => some ([], false, c)
    | ch :: rest =>
      let add (x : Char) (c : Cursor) : Option (List Char × Bool × Cursor) := do
        let (s, broken, c) ← quotedWord quote fuel (c.need 2)
        return (x :: s, broken, c)
      if isBlank ch || isBreak ch then some ([], false, c)
      else if ch = quote then
        if quote = '\'' && rest.head? = some '\'' then add '\'' (c.skip 2) else some ([], false, c)
      else if ch = '\\' && quote = '"' then
        if rest.head?.any isBreak then some ([], true, ((c.need 3).skip 1).nextLine)
        else do
          let (x, c) ← escape? c
          add x c
      else add ch (c.skip 1)

/-- The text up to the closing quote, and the place behind it. -/
def quoted (quote : Char) : Nat → List Char → Cursor → Option (List Char × Cursor)
  | 0, _, _ => none
  | fuel + 1, text, c =>
    let c := c.need 4
    if c.atSeparator || c.rest.isEmpty then none
    else do
      let (word, broken, c) ← quotedWord quote (c.rest.length + 1) c
      let c := c.need 1
      if c.peek = some quote then return (text ++ word, c.skip 1)
      else
        let (g, c) ← Gap.extend 0 (c.rest.length + 1) { folds := broken } c
        quoted quote fuel (text ++ word ++ g.text) c

/-! Blocks of lines -/

/-- What happens to the line breaks at the end of a block. -/
inductive Chomping where
  | strip
  | clip
  | keep
  deriving DecidableEq, Repr

/-- The chomping and the indentation that the header of a block gives, and the
place behind it. -/
def blockHeader? (c : Cursor) : Option (Chomping × Option Nat × Cursor) :=
  let chomping? (ch : Option Char) : Option Chomping :=
    match ch with
    | some '+' => some .keep
    | some '-' => some .strip
    | _ => none
  let digit? (ch : Option Char) : Option Nat :=
    ch.bind fun ch => if ch.isDigit then some (ch.toNat - '0'.toNat) else none
  let c := c.need 1
  let next := (c.skip 1).need 1
  let found :=
    match chomping? c.peek, digit? c.peek with
    | some k, _ =>
      match digit? next.peek with
      | some n => (k, some n, next.skip 1)
      | none => (k, none, next)
    | none, some n =>
      match chomping? next.peek with
      | some k => (k, some n, next.skip 1)
      | none => (.clip, some n, next)
    | none, none => (.clip, none, c)
  if found.2.1 = some 0 then none else some found

/-- The line breaks of empty lines, the greatest column that blanks lead to, and
the place behind them. Without an indentation every blank at the start of a line
counts for it. -/
def emptyLines (indent : Option Nat) :
    Nat → List Char → Nat → Cursor → Option (List Char × Nat × Cursor)
  | 0, _, _, _ => none
  | fuel + 1, breaks, widest, c =>
    let blanks := (c.rest.takeWhile (· = ' ')).length
    let c := (c.need 1).pass 1 (match indent with
      | some n => min blanks (n - c.col)
      | none => blanks)
    let widest := max widest c.col
    if c.peek = some '\t' && indent.all (c.col < ·) then none
    else if c.peek.any isBreak then
      emptyLines indent fuel (breaks ++ [c.breakChar]) widest c.nextLine
    else some (breaks, widest, c)

/-- What has been read of a block: its text, the break of its last line and those
of the empty lines behind it, and whether the last line starts with a blank. -/
structure BlockText where
  text : List Char := []
  last : List Char := []
  empty : List Char
  indented : Bool := false

/-- The lines of a block that start at the column `indent`. -/
def blockLines (folded : Bool) (indent : Nat) :
    Nat → BlockText → Cursor → Option (BlockText × Cursor)
  | 0, _, _ => none
  | fuel + 1, b, c =>
    if c.col ≠ indent || c.rest.isEmpty then some (b, c)
    else do
      let indented := c.peek.any isBlank
      let joint :=
        if folded && !b.indented && !indented && b.last = ['\n'] then
          if b.empty.isEmpty then [' '] else []
        else b.last
      let line := c.rest.takeWhile (!isBreak ·)
      let c := c.pass 1 line.length
      let last := if c.rest.isEmpty then [] else [c.breakChar]
      let c := if c.rest.isEmpty then c.need 2 else c.nextLine
      let (empty, _, c) ← emptyLines (some indent) (c.rest.length + 1) [] 0 c
      blockLines folded indent fuel
        { text := b.text ++ joint ++ b.empty ++ line, last, empty, indented } c

/-- The text of a block behind its header, in a mapping or list at the column
`outer`, and the place behind it. -/
def block (folded : Bool) (outer : Option Nat) (c : Cursor) : Option (List Char × Cursor) := do
  let (chomping, given, c) ← blockHeader? c
  let c := c.skipWhile isBlank
  let c := if c.peek = some '#' then c.skipWhile (!isBreak ·) else c
  if !endsLine c.peek then none
  else
    let c := if c.rest.isEmpty then c else c.nextLine
    let indent := given.map fun n => outer.getD 0 + n
    let (empty, widest, c) ← emptyLines indent (c.rest.length + 1) [] 0 c
    let least := max 1 ((outer.map (· + 1)).getD 0)
    let indent := indent.getD (max widest least)
    let (b, c) ← blockLines folded indent (c.rest.length + 1) { empty } (c.need 1)
    let ending :=
      match chomping with
      | .strip => []
      | .clip => b.last
      | .keep => b.last ++ b.empty
    return (b.text ++ ending, c)

end ClassLang.Settings.Yaml

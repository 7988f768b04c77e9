import ClassLang.Settings.Yaml.Text

/-!
The tokens of a YAML document. The columns of lines tell where mappings and lists
in block style start and end, so a token is added at each of their ends. That a
word is a key shows only at the colon behind it: the place of a word that may be
one is kept, and the tokens of a key are put there once the colon is found.
-/

namespace ClassLang.Settings.Yaml

/-- A token. -/
inductive Token where
  | streamEnd
  | version (major minor : Nat)
  | tagPrefix (handle text : String)
  | documentStart
  | documentEnd
  | blockListStart
  | blockMapStart
  | blockEnd
  | flowListStart
  | flowListEnd
  | flowMapStart
  | flowMapEnd
  | blockEntry
  | flowEntry
  | key
  | value
  | alias (name : String)
  | anchor (name : String)
  | tag (handle suffix : String)
  | scalar (text : String) (plain : Bool)
  deriving DecidableEq, Repr

/-! Tags and directives -/

/-- The octets of one character that are escaped with percent signs, each as a
character of its own. -/
def octets? (cs : List Char) : Option (List Char) := do
  let octet? (n : Nat) : Option Char :=
    match cs.drop (3 * n) with
    | '%' :: rest => hexChar? 2 rest
    | _ => none
  let first ← octet? 0
  let width ←
    if first.toNat < 0x80 then some 1
    else if first.toNat / 32 = 6 then some 2
    else if first.toNat / 16 = 14 then some 3
    else if first.toNat / 8 = 30 then some 4
    else none
  let others ← (List.range (width - 1)).mapM fun n =>
    (octet? (n + 1)).filter fun c => c.toNat / 64 = 2
  return first :: others

/-- Whether a character may stand in a tag. -/
def isTagChar (c : Char) : Bool := isNameChar c || ";/?:@&=+$,.!~*'()[]%".contains c

/-- The characters of a tag, and the place behind them. The fuel bounds their
number. -/
def tagChars? : Nat → Cursor → Option (List Char × Cursor)
  | 0, _ => none
  | fuel + 1, c =>
    match c.peek with
    | none => some ([], c)
    | some ch =>
      if !isTagChar ch then some ([], c)
      else do
        let part ← if ch = '%' then octets? c.rest else some [ch]
        let (others, c) ← tagChars? fuel (c.skip (if ch = '%' then 3 * part.length else 1))
        return (part ++ others, c)

/-- A part of a tag that is not empty, and the place behind it. -/
def tagPart? (c : Cursor) : Option (List Char × Cursor) :=
  (tagChars? (c.rest.length + 1) c).filter fun (s, _) => !s.isEmpty

/-- The handle that starts here: a name behind an exclamation mark, with another
one at its end if it has one; and the place behind it. -/
def handle? (c : Cursor) : Option (List Char × Cursor) :=
  if c.peek ≠ some '!' then none
  else
    let name := (c.skip 1).rest.takeWhile isNameChar
    let c := c.skip (name.length + 1)
    if c.peek = some '!' then some ('!' :: name ++ ['!'], c.skip 1) else some ('!' :: name, c)

/-- The handle and the rest of the tag that starts here, and the place behind it. A
tag between angle brackets has no handle, nor has a single exclamation mark. -/
def tagParts? (c : Cursor) : Option (List Char × List Char × Cursor) := do
  if c.ahead 1 = some '<' then
    let (suffix, c) ← tagPart? (c.skip 2)
    if c.peek = some '>' then some ([], suffix, c.skip 1) else none
  else
    let (handle, c) ← handle? c
    if 1 < handle.length && handle.getLast? = some '!' then
      let (suffix, c) ← tagPart? c
      return (handle, suffix, c)
    else
      let (suffix, c) ← tagChars? (c.rest.length + 1) c
      let suffix := handle.tail ++ suffix
      return if suffix.isEmpty then ([], ['!'], c) else (['!'], suffix, c)

/-- The tag that starts here, and the place behind it. -/
def tag? (c : Cursor) : Option (Token × Cursor) := do
  let (handle, suffix, c) ← tagParts? c
  if endsWord c.peek then some (.tag (String.ofList handle) (String.ofList suffix), c) else none

/-- A part of a version: one or two digits; and the place behind it. -/
def versionPart? (c : Cursor) : Option (Nat × Cursor) :=
  let digits := c.rest.takeWhile Char.isDigit
  if digits.isEmpty || 2 < digits.length then none
  else some (digits.foldl (fun n d => 10 * n + (d.toNat - '0'.toNat)) 0, c.skip digits.length)

/-- The version that starts here, and the place behind it. -/
def version? (c : Cursor) : Option (Token × Cursor) := do
  let (major, c) ← versionPart? c
  if c.peek ≠ some '.' then none
  else
    let (minor, c) ← versionPart? (c.skip 1)
    return (.version major minor, c)

/-- The handle that starts here with the text that it stands for, and the place
behind them. -/
def tagPrefix? (c : Cursor) : Option (Token × Cursor) := do
  let (handle, c) ← handle? c
  if (1 < handle.length && handle.getLast? ≠ some '!') || !c.peek.any isBlank then none
  else
    let (text, c) ← tagPart? (c.skipWhile isBlank)
    if endsWord c.peek then
      some (.tagPrefix (String.ofList handle) (String.ofList text), c)
    else none

/-- The directive behind a percent sign, and the start of the next line. -/
def directive? (c : Cursor) : Option (Token × Cursor) := do
  let name := c.rest.takeWhile isNameChar
  let c := c.skip name.length
  if !endsWord c.peek then none
  else
    let inner := c.skipWhile isBlank
    let (t, c) ←
      match String.ofList name with
      | "YAML" => version? inner
      | "TAG" => tagPrefix? inner
      | _ => none
    let c := c.skipWhile isBlank
    let c := if c.peek = some '#' then c.skipWhile (!isBreak ·) else c
    if !endsLine c.peek then none
    else some (t, if c.rest.isEmpty then c else c.nextLine)

/-! Blanks and comments -/

/-- How many characters are looked at in the search for a comment. -/
def commentReach : Nat := 512

/-- The place behind blanks and ends of lines. The fuel bounds their number. -/
def skipLines : Nat → Cursor → Cursor
  | 0, c => c
  | fuel + 1, c =>
    match c.peek with
    | some ch =>
      if isBlank ch then skipLines fuel ((c.skip 1).need 1)
      else if ch = '\n' || ch = '\r' then skipLines fuel (c.nextLine.need 1)
      else c
    | none => c

/-- The end of the line of a comment, or of the last of several comments with only
blanks and ends of lines between them. The fuel bounds their number. -/
def skipComments : Nat → Cursor → Cursor
  | 0, c => c
  | fuel + 1, c =>
    let c := c.skipWhile (!isBreak ·)
    let gap :=
      if c.peek = some '\n' || c.peek = some '\r' then
        some (c.rest.tail.takeWhile fun ch => isBlank ch || ch = '\n' || ch = '\r').length
      else none
    let distance := gap.getD 0 + 1
    let c := c.needEach 1 (min distance (commentReach - 1))
    if gap.isSome && distance < commentReach && c.ahead distance = some '#' then
      skipComments fuel (skipLines c.rest.length c)
    else c

/-! Scanning -/

/-- The last word that may turn out to be a key: the place for the tokens of a key,
and where the word stands. If it starts where the keys of a block do, it has to be
one. It is `possible` until it is known what it is, and the reader waits for that
while it is `awaited`. -/
structure PendingKey where
  place : Nat := 0
  line : Nat := 0
  index : Nat := 0
  required : Bool := false
  possible : Bool := false
  awaited : Bool := false

/-- What has been scanned, and how many of the tokens have been read. `blocks` are
the columns of the open blocks, `outer` the pending keys outside each open bracket
or brace, and `keyAllowed` tells whether a key may start here. -/
structure Scanner where
  cursor : Cursor
  tokens : Array Token := #[]
  read : Nat := 0
  blocks : List Nat := []
  pending : PendingKey := {}
  outer : List PendingKey := []
  keyAllowed : Bool := true

namespace Scanner

/-- Whether the place is in brackets or braces. -/
def inFlow (s : Scanner) : Bool := !s.outer.isEmpty

/-- The least column of the lines of a text in the innermost block. -/
def textIndent (s : Scanner) : Nat := (s.blocks.head?.map (· + 1)).getD 0

/-- Adds a token, with the place behind it. -/
def push (s : Scanner) (t : Token) (c : Cursor) : Scanner :=
  { s with tokens := s.tokens.push t, cursor := c }

/-- Closes the blocks that start behind a column, or all blocks. -/
def closeBlocks (s : Scanner) (col : Option Nat) : Scanner :=
  if s.inFlow then s
  else
    let closed := s.blocks.takeWhile fun b => col.all (· < b)
    { s with
      blocks := s.blocks.drop closed.length
      tokens := closed.foldl (fun ts _ => ts.push .blockEnd) s.tokens }

/-- Puts a token to a given place, or to the end if that place has been read. -/
def insert (s : Scanner) (t : Token) (place : Nat) : Scanner :=
  let place := if place < s.read then s.tokens.size else place
  { s with tokens := s.tokens.insertIdxIfInBounds place t }

/-- Opens a block at a column, unless it goes on there. Its token goes to a given
place. -/
def openBlock (s : Scanner) (t : Token) (col place : Nat) : Scanner :=
  if s.inFlow || s.blocks.head?.any (col ≤ ·) then s
  else { s.insert t place with blocks := col :: s.blocks }

/-- Gives up the pending key, unless it has to be a key. -/
def dropKey? (s : Scanner) : Option Scanner :=
  if s.pending.possible && s.pending.required then none
  else some { s with pending.possible := false }

/-- Notes that the word that starts here may be a key. -/
def saveKey? (s : Scanner) : Option Scanner :=
  if !s.keyAllowed then some s
  else
    let c := s.cursor
    let required := !s.inFlow && s.blocks.head? = some c.col
    s.dropKey?.map fun s =>
      { s with pending := ⟨s.tokens.size, c.line, c.index, required, true, true⟩ }

/-- Whether a pending key can still be one: it is on one line, and not too long. One
that has to be a key and cannot be one is an error. -/
def isLive? (s : Scanner) (k : PendingKey) : Option Bool :=
  if !k.possible then some false
  else if k.line = s.cursor.line && s.cursor.index ≤ k.index + 1024 then some true
  else if k.required then none
  else some false

/-- Skips blanks, comments and ends of lines. A tab may not stand where a key of a
block may start. While the window starts with a byte order mark, the first character
of a line is skipped, whatever it is. The fuel bounds the lines. -/
def skipSpace : Nat → Scanner → Scanner
  | 0, s => s
  | fuel + 1, s =>
    let tabs := s.inFlow || !s.keyAllowed
    let c := s.cursor.need 1
    let c := if c.col = 0 && c.window = some byteOrderMark then c.skipAny else c
    let c := c.skipWhile fun ch => ch = ' ' || (tabs && ch = '\t')
    let c := if c.peek = some '#' then skipComments c.rest.length c else c
    if c.peek.any isBreak then
      skipSpace fuel { s with cursor := c.nextLine, keyAllowed := s.keyAllowed || !s.inFlow }
    else { s with cursor := c }

/-- Skips a comment on the line of the last token. -/
def skipComment (s : Scanner) : Scanner :=
  let follows :=
    match s.tokens.back? with
    | some .blockEntry => false
    | some (.scalar _ _) => !s.keyAllowed
    | _ => true
  if !follows then s
  else
    let blanks := (s.cursor.rest.takeWhile isBlank).length
    let c := s.cursor.needEach 0 (min (blanks + 1) commentReach)
    if blanks < commentReach && c.ahead blanks = some '#' then
      { s with cursor := (c.skipWhile isBlank).skipWhile (!isBreak ·) }
    else { s with cursor := c }

/-- Scans a token that belongs to no block. -/
def outside? (s : Scanner) (t : Token) (c : Cursor) : Option Scanner := do
  let s ← (s.closeBlocks none).dropKey?
  return { s.push t c with keyAllowed := false }

/-- Scans the end of the text, which ends a line. -/
def streamEnd? (s : Scanner) : Option Scanner :=
  let c := s.cursor
  s.outside? .streamEnd (if c.col = 0 then c else { c with line := c.line + 1, col := 0 })

/-- Scans an opening bracket or brace. -/
def flowStart? (s : Scanner) (t : Token) : Option Scanner := do
  let s ← s.saveKey?
  return { s.push t (s.cursor.skip 1) with
    pending := { place := s.tokens.size }, outer := s.pending :: s.outer, keyAllowed := true }

/-- Scans a closing bracket or brace. If no key has been noted behind the opening
one, the reader does not wait for it any more. -/
def flowEnd? (s : Scanner) (t : Token) : Option Scanner := do
  let s ← s.dropKey?
  let inner := s.pending
  let s := { s.push t (s.cursor.skip 1) with keyAllowed := false }
  match s.outer with
  | [] => return s
  | k :: outer =>
    let awaited := k.awaited && k.place ≠ inner.place
    return { s with pending := { k with awaited }, outer }

/-- Scans a comma. -/
def flowEntry? (s : Scanner) : Option Scanner := do
  let s ← s.dropKey?
  return { s.push .flowEntry (s.cursor.skip 1) with keyAllowed := true }

/-- Scans the hyphen of an entry. -/
def blockEntry? (s : Scanner) : Option Scanner := do
  if !s.inFlow && !s.keyAllowed then none
  else
    let s ← (s.openBlock .blockListStart s.cursor.col s.tokens.size).dropKey?
    return { s.push .blockEntry (s.cursor.skip 1) with keyAllowed := true }

/-- Scans the question mark of a key. -/
def key? (s : Scanner) : Option Scanner := do
  if !s.inFlow && !s.keyAllowed then none
  else
    let s ← (s.openBlock .blockMapStart s.cursor.col s.tokens.size).dropKey?
    return { s.push .key (s.cursor.skip 1) with keyAllowed := !s.inFlow }

/-- Scans the colon of a value. -/
def value? (s : Scanner) : Option Scanner := do
  let k := s.pending
  if ← s.isLive? k then
    let s := { s.insert .key k.place with pending.possible := false }
    let s := s.openBlock .blockMapStart (s.cursor.col + k.index - s.cursor.index) k.place
    return { s.push .value (s.cursor.skip 1) with keyAllowed := false }
  else if !s.inFlow && !s.keyAllowed then none
  else
    let s := s.openBlock .blockMapStart s.cursor.col s.tokens.size
    return { s.push .value (s.cursor.skip 1) with
      pending.possible := false, keyAllowed := !s.inFlow }

/-- Scans a word that may be a key, or part of one. -/
def word? (s : Scanner) (scan : Cursor → Option (Token × Cursor)) : Option Scanner := do
  let s ← s.saveKey?
  let (t, c) ← scan s.cursor
  return { s.push t c with keyAllowed := false }

/-- Scans the name behind a mark. -/
def named? (s : Scanner) (token : String → Token) : Option Scanner :=
  s.word? fun c =>
    let c := c.skip 1
    let name := c.rest.takeWhile isNameChar
    let c := c.skip name.length
    let ends := endsWord c.peek
      || c.peek.any fun ch => "?:,]%@".contains ch || ch = '\x7d' || ch = '\x60'
    if name.isEmpty || !ends then none else some (token (String.ofList name), c)

/-- Scans a text in quotes. -/
def quoted? (s : Scanner) (quote : Char) : Option Scanner :=
  s.word? fun c => do
    let (text, c) ← quoted quote (c.rest.length + 1) [] (c.skip 1)
    return (.scalar (String.ofList text) false, c)

/-- Scans a text without quotes. Behind a line break a key may start. -/
def plain? (s : Scanner) : Option Scanner := do
  let s ← s.saveKey?
  let c := s.cursor
  let (text, folds, c) ← plain s.inFlow s.textIndent (c.rest.length + 1) [] {} c
  return { s.push (.scalar (String.ofList text) true) c with keyAllowed := folds }

/-- Scans a block of lines. -/
def block? (s : Scanner) (folded : Bool) : Option Scanner := do
  let s ← s.dropKey?
  let (text, c) ← block folded s.blocks.head? (s.cursor.skip 1)
  return { s.push (.scalar (String.ofList text) false) c with keyAllowed := true }

/-- Whether a text without quotes may start with a character, where no other token
does. -/
def startsPlain (s : Scanner) (c : Char) : Bool :=
  if c = '?' || c = ':' then !s.inFlow
  else !(isBlank c || isBreak c || ",[]#&*!|>'\"%@".contains c
    || c = '\x60' || c = '\x7b' || c = '\x7d')

/-- Scans the token that starts with a given character. -/
def token? (s : Scanner) (ch : Char) : Option Scanner :=
  let alone := endsWord (s.cursor.ahead 1)
  if ch = '[' then s.flowStart? .flowListStart
  else if ch = '\x7b' then s.flowStart? .flowMapStart
  else if ch = ']' then s.flowEnd? .flowListEnd
  else if ch = '\x7d' then s.flowEnd? .flowMapEnd
  else if ch = ',' then s.flowEntry?
  else if ch = '-' && alone then s.blockEntry?
  else if ch = '?' && (s.inFlow || alone) then s.key?
  else if ch = ':' && (s.inFlow || alone) then s.value?
  else if ch = '*' then s.named? .alias
  else if ch = '&' then s.named? .anchor
  else if ch = '!' then s.word? tag?
  else if ch = '|' && !s.inFlow then s.block? false
  else if ch = '>' && !s.inFlow then s.block? true
  else if ch = '\'' || ch = '"' then s.quoted? ch
  else if s.startsPlain ch then s.plain?
  else none

/-- Scans the next token. -/
def next? (s : Scanner) : Option Scanner := do
  let s := { s with cursor := s.cursor.need 1 }
  let s := s.skipSpace (s.cursor.rest.length + 1)
  let s := s.closeBlocks (some s.cursor.col)
  let c := s.cursor.need 4
  let s := { s with cursor := c }
  match c.peek with
  | none => s.streamEnd?
  | some ch =>
    if c.col = 0 && ch = '%' then
      let (t, c) ← directive? (c.skip 1)
      s.outside? t c
    else if c.atSeparator then
      s.outside? (if ch = '-' then .documentStart else .documentEnd) (c.skip 3)
    else return (← s.token? ch).skipComment

/-- Whether the next token can be read: the two behind it are known, and it is known
whether a key starts with it. -/
def ready? (s : Scanner) : Option Bool :=
  if s.tokens.size ≤ s.read + 2 then some false
  else
    match (s.pending :: s.outer).find? fun k => k.awaited && k.place = s.read with
    | some k => (s.isLive? k).map (!·)
    | none => some true

/-- Scans until the next token can be read. The fuel bounds the tokens. -/
def fill? : Nat → Scanner → Option Scanner
  | 0, _ => none
  | fuel + 1, s => do
    if ← s.ready? then return s
    else
      let s ← s.next?
      if s.cursor.broken then none else fill? fuel s

/-- The next token, and what has been scanned to know it. Each scan passes over a
character, but at most three are needed at the end of the text. -/
def peek? (s : Scanner) : Option (Token × Scanner) := do
  let s ← s.fill? (s.cursor.rest.length + 4)
  return (← s.tokens[s.read]?, s)

end Scanner

end ClassLang.Settings.Yaml

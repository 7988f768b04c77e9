import ClassLang.Number.Word
import ClassLang.Settings
import ClassLang.Settings.Toml.Moment

/-!
The expressions of a settings file in TOML: a blank line, a header that names a
group, or a key with a value. A number is only found here, and not read: it may be
the value of a key that does not exist.
-/

namespace ClassLang.Settings.Toml

/-! Lines -/

/-- Whether a character separates words in a line. -/
def isBlank (c : Char) : Bool := c = ' ' || c = '\t'

/-- Characters without the blanks at their start. -/
def skipBlanks (cs : List Char) : List Char := cs.dropWhile isBlank

/-- Whether a character may not stand in a text or a comment. -/
def isControl (c : Char) : Bool := (c.toNat < 0x20 && c ≠ '\t') || c.toNat = 0x7F

/-- What follows the end of a line that comes first. -/
def newline? : List Char → Option (List Char)
  | '\n' :: rest | '\r' :: '\n' :: rest => some rest
  | _ => none

/-- What follows a comment: nothing, or the end of its line. -/
def comment? : List Char → Option (List Char)
  | [] => some []
  | '\n' :: rest | '\r' :: '\n' :: rest => some ('\n' :: rest)
  | c :: rest => if isControl c then none else comment? rest

/-! Texts -/

/-- The value of hexadecimal digits. -/
def hexValue? (cs : List Char) : Option Nat :=
  cs.foldlM (fun n c => (Number.digitValue? c).bind fun d =>
    if d < 16 then some (16 * n + d) else none) 0

/-- The character with a given number, if there is one. -/
def charOf? (n : Nat) : Option Char := if h : n.isValidChar then some (Char.ofNatAux n h) else none

/-- The character that a letter behind a backslash stands for. -/
def escapeLetter? : Char → Option Char
  | 'b' => some '\x08'
  | 't' => some '\t'
  | 'n' => some '\n'
  | 'f' => some '\x0C'
  | 'r' => some '\r'
  | 'e' => some '\x1B'
  | '"' => some '"'
  | '\\' => some '\\'
  | _ => none

/-- The character that stands behind a backslash, and what follows it. -/
def escape? : List Char → Option (Char × List Char)
  | 'u' :: rest => do
    if rest.length < 4 then none
    else return (← (hexValue? (rest.take 4)).bind charOf?, rest.drop 4)
  | 'U' :: rest => do
    if rest.length < 8 then none
    else return (← (hexValue? (rest.take 8)).bind charOf?, rest.drop 8)
  | c :: rest => do return (← escapeLetter? c, rest)
  | [] => none

/-- The text up to a closing double quote, and what follows it. The fuel bounds
the characters. -/
def quoted? : Nat → List Char → Option (List Char × List Char)
  | 0, _ | _, [] => none
  | fuel + 1, c :: rest =>
    if c = '"' then some ([], rest)
    else do
      let (x, rest) ←
        if c = '\\' then escape? rest else if isControl c then none else some (c, rest)
      let (s, rest) ← quoted? fuel rest
      return (x :: s, rest)

/-- The text up to a closing single quote, and what follows it. -/
def literal? (cs : List Char) : Option (List Char × List Char) :=
  let s := cs.takeWhile (· ≠ '\'')
  match cs.dropWhile (· ≠ '\'') with
  | _ :: rest => if s.any isControl then none else some (s, rest)
  | [] => none

/-- The end of a text of several lines behind its three closing quotes. Up to two
quotes more belong to the text. -/
def closing? (quote : Char) (rest : List Char) : Option (List Char × List Char) :=
  let more := (rest.takeWhile (· = quote)).length
  if more ≤ 2 then some (List.replicate more quote, rest.drop more) else none

/-- What follows the blanks and ends of lines that come first. -/
def skipLines? : List Char → Option (List Char)
  | '\r' :: '\n' :: rest => skipLines? rest
  | '\r' :: _ => none
  | c :: rest => if isBlank c || c = '\n' then skipLines? rest else some (c :: rest)
  | [] => some []

/-- The text of several lines up to three closing quotes, and what follows them.
Between double quotes a backslash starts an escape; one at the end of a line
takes away the blanks and ends of lines behind it. -/
def lines? (quote : Char) : Nat → List Char → Option (List Char × List Char)
  | 0, _ | _, [] => none
  | fuel + 1, c :: rest =>
    if c = quote && rest.take 2 = [quote, quote] then closing? quote (rest.drop 2)
    else if c = '\\' && quote = '"' then
      if (newline? (skipBlanks rest)).isSome then do
        let rest ← skipLines? rest
        lines? quote fuel rest
      else do
        let (x, rest) ← escape? rest
        let (s, rest) ← lines? quote fuel rest
        return (x :: s, rest)
    else if c = '\r' then
      match rest with
      | '\n' :: rest => do
        let (s, rest) ← lines? quote fuel rest
        return ('\r' :: '\n' :: s, rest)
      | _ => none
    else if isControl c && c ≠ '\n' then none
    else do
      let (s, rest) ← lines? quote fuel rest
      return (c :: s, rest)

/-- A text in quotes, and what follows it. The end of a line right behind three
opening quotes is left out. -/
def text? (cs : List Char) : Option (String × List Char) :=
  let fuel := cs.length
  let found :=
    match cs with
    | '"' :: '"' :: '"' :: rest => lines? '"' fuel ((newline? rest).getD rest)
    | '\'' :: '\'' :: '\'' :: rest => lines? '\'' fuel ((newline? rest).getD rest)
    | '"' :: rest => quoted? fuel rest
    | '\'' :: rest => literal? rest
    | _ => none
  found.map fun (s, rest) => (String.ofList s, rest)

/-! Keys -/

/-- Whether a character may stand in a key without quotes. -/
def isKeyChar (c : Char) : Bool := c.isAlphanum || c = '_' || c = '-'

/-- One part of a key, and what follows it. -/
def keyPart? (cs : List Char) : Option (String × List Char) :=
  match cs with
  | '"' :: rest => (quoted? cs.length rest).map fun (s, rest) => (String.ofList s, rest)
  | '\'' :: rest => (literal? rest).map fun (s, rest) => (String.ofList s, rest)
  | _ =>
    let s := cs.takeWhile isKeyChar
    if s.isEmpty then none else some (String.ofList s, cs.dropWhile isKeyChar)

/-- A key of parts between dots, and what follows it. The fuel bounds the parts. -/
def key? : Nat → List Char → Option (List String × List Char)
  | 0, _ => none
  | fuel + 1, cs => do
    let (part, rest) ← keyPart? (skipBlanks cs)
    match skipBlanks rest with
    | '.' :: rest =>
      let (parts, rest) ← key? fuel rest
      return (part :: parts, rest)
    | rest => return ([part], rest)

/-! Values -/

/-- Digits in which underscores stand only between digits. -/
def separated? (cs : List Char) : Option (List Char) :=
  let groups := (String.ofList cs).splitOn "_"
  if groups.any (·.isEmpty) then none else some (cs.filter (· ≠ '_'))

/-- The value of digits in a base. -/
def inBase? (base : Nat) (cs : List Char) : Option Nat :=
  cs.foldlM (fun n c => do
    let d ← Number.digitValue? c
    if d < base then some (base * n + d) else none) 0

/-- A decimal integer without its sign. Only zero starts with a zero. -/
def decimal? (cs : List Char) : Option Nat := do
  let digits ← separated? cs
  if digits.head? = some '0' && 1 < digits.length then none else inBase? 10 digits

/-- An integer of 64 bits. -/
def int? (cs : List Char) : Option Int := do
  let n : Int ←
    match cs with
    | '0' :: 'x' :: rest => ((separated? rest).bind (inBase? 16)).map Int.ofNat
    | '0' :: 'o' :: rest => ((separated? rest).bind (inBase? 8)).map Int.ofNat
    | '0' :: 'b' :: rest => ((separated? rest).bind (inBase? 2)).map Int.ofNat
    | '-' :: rest => (decimal? rest).map fun n => -(n : Int)
    | '+' :: rest => (decimal? rest).map Int.ofNat
    | _ => (decimal? cs).map Int.ofNat
  if -(Number.signLimit : Int) ≤ n && n < Number.signLimit then some n else none

/-- A value. A number is kept as it is written. -/
inductive Value where
  | text (s : String)
  | truth (b : Bool)
  | integer (word : List Char)
  | float
  | moment (kind : MomentKind) (word : List Char)
  | list (items : List Value)
  | group (pairs : List (List String × Value))

/-- Whether a character may stand in a number in the base that a letter behind a
zero tells. -/
def basedChar? : Char → Option (Char → Bool)
  | 'x' => some fun c => (Number.digitValue? c).any (· < 16) || c = '_'
  | 'o' => some fun c => (Number.digitValue? c).any (· < 8) || c = '_'
  | 'b' => some fun c => c = '0' || c = '1' || c = '_'
  | _ => none

/-- Whether a character may stand in a decimal number. -/
def isNumberChar (c : Char) : Bool := c.isDigit || "+-_.eE".contains c

/-- A decimal number, and what follows it. It may end with a word for a number that
has no digits. -/
def decimalNumber? (cs : List Char) : Option (Value × List Char) :=
  let word := cs.takeWhile isNumberChar
  let rest := cs.dropWhile isNumberChar
  if rest.head? = some 'i' || rest.head? = some 'n' then
    if rest.take 3 = ['i', 'n', 'f'] || rest.take 3 = ['n', 'a', 'n'] then
      some (.float, rest.drop 3)
    else none
  else if word.isEmpty then none
  else some (if word.any (".eE".contains ·) then .float else .integer word, rest)

/-- A number, and what follows it. A zero is a number of its own unless a point, an
exponent or a base follows it. -/
def number? (cs : List Char) : Option (Value × List Char) :=
  match cs with
  | '0' :: c :: d :: rest =>
    match basedChar? c with
    | some p =>
      let digits := (d :: rest).takeWhile p
      some (.integer ('0' :: c :: digits), (d :: rest).dropWhile p)
    | none =>
      if ".eE".contains c then decimalNumber? cs else some (.integer ['0'], c :: d :: rest)
  | _ => decimalNumber? cs

/-- A value without parts, and what follows it. -/
def single? (cs : List Char) : Option (Value × List Char) :=
  match cs with
  | '"' :: _ | '\'' :: _ => (text? cs).map fun (s, rest) => (.text s, rest)
  | 't' :: _ =>
    if cs.take 4 = ['t', 'r', 'u', 'e'] then some (.truth true, cs.drop 4) else none
  | 'f' :: _ =>
    if cs.take 5 = ['f', 'a', 'l', 's', 'e'] then some (.truth false, cs.drop 5) else none
  | _ =>
    if startsMoment cs then
      let (marks, n) := Marks.scan cs.length 0 {} cs
      some (.moment marks.kind (cs.take n), cs.drop n)
    else number? cs

/-- What follows blanks, comments and ends of lines. The fuel bounds the lines. -/
def skipSpace? : Nat → List Char → Option (List Char)
  | 0, _ => none
  | fuel + 1, cs => do
    let rest ←
      match skipBlanks cs with
      | '#' :: rest => comment? rest
      | rest => some rest
    match rest with
    | '\n' :: _ | '\r' :: _ => skipSpace? fuel (← newline? rest)
    | _ => return rest

mutual

/-- A value, and what follows it. -/
def value? : Nat → List Char → Option (Value × List Char)
  | 0, _ => none
  | fuel + 1, cs =>
    match cs with
    | '\x7b' :: rest =>
      match skipBlanks rest with
      | '\x7d' :: rest => some (.group [], rest)
      | rest => (pairs? fuel rest).map fun (ps, rest) => (.group ps, rest)
    | '[' :: rest => (items? fuel true rest).map fun (vs, rest) => (.list vs, rest)
    | _ => single? cs

/-- The values of a list, up to its end. A comma may also stand behind the last one. -/
def items? : Nat → (first : Bool) → List Char → Option (List Value × List Char)
  | 0, _, _ => none
  | fuel + 1, first, cs => do
    let cs ← skipSpace? (cs.length + 1) cs
    match cs with
    | [] => none
    | ']' :: rest => return ([], rest)
    | c :: rest =>
      let cs ←
        if c = ',' && !first then skipSpace? (rest.length + 1) rest
        else if first then some cs
        else none
      match cs with
      | ']' :: rest => return ([], rest)
      | _ =>
        let (v, rest) ← value? fuel cs
        let (vs, rest) ← items? fuel false rest
        return (v :: vs, rest)

/-- The keys and values of a group in braces, up to its end. -/
def pairs? : Nat → List Char → Option (List (List String × Value) × List Char)
  | 0, _ => none
  | fuel + 1, cs => do
    let (p, rest) ← pair? fuel cs
    match skipBlanks rest with
    | '\x7d' :: rest => return ([p], rest)
    | ',' :: rest =>
      let (more, rest) ← pairs? fuel (skipBlanks rest)
      return (p :: more, rest)
    | _ => none

/-- A key with its value, and what follows it. -/
def pair? : Nat → List Char → Option ((List String × Value) × List Char)
  | 0, _ => none
  | fuel + 1, cs => do
    let (key, rest) ← key? (cs.length + 1) cs
    match rest with
    | '=' :: rest =>
      let (v, rest) ← value? fuel (skipBlanks rest)
      return ((key, v), rest)
    | _ => none

end

/-! Expressions -/

/-- What a line or several lines say. -/
inductive Expression where
  | blank
  /-- A header that names a group, or an entry of a list of groups. -/
  | header (path : List String) (ofList : Bool)
  | pair (key : List String) (v : Value)

/-- A header behind its opening bracket, and what follows it. -/
def header? (cs : List Char) : Option (Expression × List Char) := do
  let ofList : Bool := cs.head? = some '['
  let cs := if ofList then cs.tail else cs
  let (path, rest) ← key? (cs.length + 1) cs
  match rest, ofList with
  | ']' :: ']' :: rest, true | ']' :: rest, false => return (.header path ofList, rest)
  | _, _ => none

/-- An expression, and what follows it: nothing, or the end of its line. -/
def expression? (cs : List Char) : Option (Expression × List Char) := do
  let (e, rest) ←
    match skipBlanks cs with
    | [] => some (.blank, [])
    | c :: rest =>
      if c = '#' || c = '\n' || c = '\r' then some (.blank, c :: rest)
      else if c = '[' then header? rest
      else (pair? (cs.length + 1) (c :: rest)).map fun ((key, v), rest) => (.pair key v, rest)
  match skipBlanks rest with
  | '#' :: rest => return (e, ← comment? rest)
  | rest => return (e, rest)

end ClassLang.Settings.Toml

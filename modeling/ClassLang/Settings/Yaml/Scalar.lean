import ClassLang.Number.Calendar
import ClassLang.Number.Double
import ClassLang.Number.Word
import ClassLang.Settings

/-!
What scalars of a YAML document stand for. Without quotes a word may be taken for
a number, a truth value or nothing; where a text is wanted it is taken as it is
written. Bytes are written in base 64: four digits stand for three bytes, and equals
signs fill the last group up. Only a scalar with the tag of a timestamp has to be a
date or a time.
-/

namespace ClassLang.Settings.Yaml.Timestamp

/-- The number that digits form. -/
def ofDigits (ds : List Char) : Nat := ds.foldl (fun n d => 10 * n + (d.toNat - '0'.toNat)) 0

/-- A number of one or two digits, and what follows it. -/
def number? (cs : List Char) : Option (Nat × List Char) :=
  let digits := (cs.take 2).takeWhile Char.isDigit
  if digits.isEmpty then none else some (ofDigits digits, cs.drop digits.length)

/-- A number of one or two digits behind a mark, and what follows it. -/
def numberBehind? (mark : Char) (cs : List Char) : Option (Nat × List Char) :=
  if cs.head? = some mark then number? cs.tail else none

/-- What follows a date. Its year has four digits. -/
def date? (cs : List Char) : Option (List Char) := do
  let year := cs.takeWhile Char.isDigit
  if year.length ≠ 4 then none
  else
    let (month, cs) ← numberBehind? '-' (cs.drop 4)
    let (day, cs) ← numberBehind? '-' cs
    if Calendar.isDate (ofDigits year) month day then some cs else none

/-- What follows a time of day. A fraction of a second has a point or a comma. -/
def time? (cs : List Char) : Option (List Char) := do
  let (hour, cs) ← number? cs
  let (minute, cs) ← numberBehind? ':' cs
  let (second, cs) ← numberBehind? ':' cs
  if 24 ≤ hour || 60 ≤ minute || 60 ≤ second then none
  else
    match cs with
    | c :: d :: rest =>
      if (c = '.' || c = ',') && d.isDigit then some (rest.dropWhile Char.isDigit) else some cs
    | _ => some cs

/-- Whether a word is the offset of a time zone. -/
def isZone (cs : List Char) : Bool :=
  match cs with
  | ['Z'] => true
  | [sign, h, i, colon, m, n] =>
    (sign = '+' || sign = '-') && colon = ':' && [h, i, m, n].all Char.isDigit
      && ofDigits [h, i] ≤ 24 && ofDigits [m, n] ≤ 60
  | _ => false

/-- Whether what follows a date is a time with a zone behind the letter T, or one
without a zone behind blanks. -/
def isTimePart (cs : List Char) : Bool :=
  match cs with
  | [] => true
  | c :: rest =>
    if c = 'T' || c = 't' then (time? rest).any isZone
    else c = ' ' && time? (rest.dropWhile (· = ' ')) = some []

end Timestamp

/-- Whether a word is a date, with a time or without one. -/
def isTimestamp (s : String) : Bool := (Timestamp.date? s.toList).any Timestamp.isTimePart

end ClassLang.Settings.Yaml

namespace ClassLang.Base64

/-- The six bits that a digit stands for. -/
def digit? (c : Char) : Option Nat :=
  if c.isUpper then some (c.toNat - 'A'.toNat)
  else if c.isLower then some (c.toNat - 'a'.toNat + 26)
  else if c.isDigit then some (c.toNat - '0'.toNat + 52)
  else if c = '+' then some 62
  else if c = '/' then some 63
  else none

/-- The number that four digits form. -/
def number? (a b c d : Char) : Option Nat := do
  return ((← digit? a) * 64 + (← digit? b)) * 4096 + (← digit? c) * 64 + (← digit? d)

/-- The three bytes of a number, the highest first. -/
def bytes (n : Nat) : List UInt8 := [.ofNat (n / 65536), .ofNat (n / 256), .ofNat n]

/-- The bytes that groups of four digits stand for. Bits of the last group that fill
no byte are left out. -/
def groups? : List Char → Option (List UInt8)
  | [] => some []
  | [a, b, '=', '='] => do return (bytes (← number? a b 'A' 'A')).take 1
  | [a, b, c, '='] => do return (bytes (← number? a b c 'A')).take 2
  | a :: b :: c :: d :: rest => do return bytes (← number? a b c d) ++ (← groups? rest)
  | _ => none

/-- The bytes that a text stands for. Ends of lines say nothing. -/
def decode? (s : String) : Option (List UInt8) :=
  groups? (s.toList.filter fun c => c ≠ '\n' && c ≠ '\r')

end ClassLang.Base64

namespace ClassLang.Settings.Yaml

/-! Words -/

/-- What a word stands for. -/
inductive Meaning where
  | nothing
  | truth (b : Bool)
  | integer (n : Int)
  | decimal (x : Double)
  | text

/-- The words for nothing, for truth values and for numbers that have no digits. -/
def words : List (String × Meaning) :=
  ["", "~", "null", "Null", "NULL"].map (·, Meaning.nothing)
    ++ ["true", "True", "TRUE"].map (·, Meaning.truth true)
    ++ ["false", "False", "FALSE"].map (·, Meaning.truth false)
    ++ [".inf", ".Inf", ".INF", "+.inf", "+.Inf", "+.INF"].map (·, Meaning.decimal (.infinity false))
    ++ ["-.inf", "-.Inf", "-.INF"].map (·, Meaning.decimal (.infinity true))
    ++ [".nan", ".NaN", ".NAN"].map (·, Meaning.decimal .nan)

/-- Whether digits with a point and an exponent form a decimal. -/
def isDecimal (cs : List Char) : Bool :=
  let unsigned :=
    match cs with
    | c :: rest => if c = '-' || c = '+' then rest else cs
    | [] => []
  let whole := unsigned.takeWhile Char.isDigit
  let rest := unsigned.dropWhile Char.isDigit
  let (fraction, rest) :=
    match rest with
    | '.' :: rest => (rest.takeWhile Char.isDigit, rest.dropWhile Char.isDigit)
    | rest => ([], rest)
  let exponentOk :=
    match rest with
    | [] => true
    | e :: sign :: rest =>
      let digits := if sign = '-' || sign = '+' then rest else sign :: rest
      (e = 'e' || e = 'E') && !digits.isEmpty && digits.all Char.isDigit
    | _ => false
  (!whole.isEmpty || !fraction.isEmpty) && exponentOk

/-- The floating-point number that a word is, unless it is too large for one. -/
def decimal? (cs : List Char) : Option Meaning :=
  if !isDecimal cs then none
  else
    let x := Double.ofText (String.ofList cs)
    match x.view with
    | .infinite _ => none
    | _ => some (.decimal x)

/-- The natural number of 64 bits that a word is, in the base that its start tells. -/
def natural? (cs : List Char) : Option Nat :=
  let (base, digits) := Number.splitBase cs
  if cs.isEmpty then none else (Number.readDigits base 0 digits).toOption

/-- The integer that a word in a base is. With a sign it is an integer of 64 bits,
and without one a natural number of 64 bits. -/
def inBase? (base : Nat) (cs : List Char) : Option Int :=
  let digits? (ds : List Char) : Option Nat :=
    if ds.isEmpty then none else (Number.readDigits base 0 ds).toOption
  match cs with
  | '-' :: ds => ((digits? ds).filter (· ≤ Number.signLimit)).map fun n => -(n : Int)
  | '+' :: ds => ((digits? ds).filter (· < Number.signLimit)).map Int.ofNat
  | ds => (digits? ds).map Int.ofNat

/-- The integer that a word is that starts with its base. A sign may also stand
behind the base. -/
def based? (cs : List Char) : Option Int :=
  match cs with
  | '0' :: 'b' :: rest => inBase? 2 rest
  | '0' :: 'o' :: rest => inBase? 8 rest
  | '-' :: '0' :: 'b' :: rest => inBase? 2 ('-' :: rest)
  | '-' :: '0' :: 'o' :: rest => inBase? 8 ('-' :: rest)
  | _ => none

/-- What a word that starts with a digit or a sign stands for. Underscores say
nothing. -/
def numeric (s : String) : Meaning :=
  let cs := s.toList.filter (· ≠ '_')
  match (Number.readWord (String.ofList cs)).toOption with
  | some n => .integer n
  | none =>
    match natural? cs with
    | some n => .integer n
    | none =>
      match decimal? cs with
      | some m => m
      | none => ((based? cs).map .integer).getD .text

/-- What a word that starts with a point stands for. Underscores stand between
digits. -/
def fraction (s : String) : Meaning :=
  let cs := s.toList
  if !Number.underscoresOk Char.isDigit false cs then .text
  else (decimal? (cs.filter (· ≠ '_'))).getD .text

/-- What a word stands for. -/
def meaning (s : String) : Meaning :=
  match List.lookup s words with
  | some m => m
  | none =>
    match s.toList.head? with
    | some c =>
      if c.isDigit || c = '-' || c = '+' then numeric s
      else if c = '.' then fraction s
      else .text
    | none => .text

/-! Values -/

/-- The truth value that a text stands for where one is wanted. -/
def textTruth? (s : String) : Option Bool :=
  if ["y", "Y", "yes", "Yes", "YES", "on", "On", "ON"].contains s then some true
  else if ["n", "N", "no", "No", "NO", "off", "Off", "OFF"].contains s then some false
  else none

/-- A floating-point number cut to an integer of 64 bits. One that is too small
becomes the least integer. -/
def cut? (x : Double) : Option Int :=
  match x.view with
  | .nan => none
  | .infinite neg => if neg then some (-(Number.signLimit : Int)) else none
  | .finite neg m e =>
    let q := Double.toRat neg m e
    let n := q.num.tdiv q.den
    if (Number.signLimit * q.den : Int) < q.num then none
    else if n < -(Number.signLimit : Int) || (Number.signLimit : Int) ≤ n then
      some (-(Number.signLimit : Int))
    else some n

/-- What a scalar can be taken for that is written `s`. Nothing is no value. -/
def value? (s : String) (m : Meaning) : Option Scalar :=
  let asText := some (Utf8.encode s)
  match m with
  | .nothing => none
  | .truth b => some { asText, asBool := some b }
  | .integer n => some { asText, asInt := if n < Number.signLimit then some n else none }
  | .decimal x => some { asText, asInt := cut? x }
  | .text => some { asText, asBool := textTruth? s }

/-- A tag without the start that the tags of the format itself have in common. -/
def shortTag (tag : String) : String :=
  let common := "tag:yaml.org,2002:".toList
  let cs := tag.toList
  if common.isPrefixOf cs then "!!" ++ String.ofList (cs.drop common.length) else tag

/-- What a scalar can be taken for, unless its tag asks for something else. A tag of
another kind makes it a text, as quotes do. -/
def scalar? (s : String) (plain : Bool) (tag : Option String) : Option (Option Scalar) :=
  match tag.map shortTag, meaning s with
  | none, m => some (value? s (if plain then m else .text))
  | some "!!null", .nothing => some none
  | some "!!null", _ => none
  | some "!!bool", .truth b => some (value? s (.truth b))
  | some "!!bool", _ => none
  | some "!!int", .integer n => some (value? s (.integer n))
  | some "!!int", _ => none
  | some "!!float", .decimal x => some (value? s (.decimal x))
  | some "!!float", .integer n =>
    if n < Number.signLimit then some (value? s (.decimal (.ofRat n))) else none
  | some "!!float", _ => none
  | some "!!timestamp", _ =>
    if isTimestamp s then some (some { asText := some (Utf8.encode s) }) else none
  | some "!!binary", _ => do
    let bytes ← Base64.decode? s
    return some { asText := some bytes, asBool := textTruth? (Utf8.decode bytes) }
  | some _, _ => some (value? s .text)

end ClassLang.Settings.Yaml

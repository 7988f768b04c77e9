import ClassLang.Number.Calendar

/-!
Dates and times in a settings file in TOML. No setting takes one, but it matters
which kind of them a word is, and whether there is such a date or time.
-/

namespace ClassLang.Settings.Toml

/-- The kinds of dates and times. -/
inductive MomentKind where
  | dateTime
  | localDateTime
  | localDate
  | localTime
  deriving DecidableEq, Repr

namespace MomentKind

/-- The word for a kind. -/
def word : MomentKind → String
  | .dateTime => "time.Time"
  | .localDateTime => "toml.LocalDateTime"
  | .localDate => "toml.LocalDate"
  | .localTime => "toml.LocalTime"

end MomentKind

/-! Words -/

/-- What the characters of a word tell about it. -/
structure Marks where
  date : Bool := false
  time : Bool := false
  zone : Bool := false
  blank : Bool := false

namespace Marks

/-- The kind of a word. -/
def kind (m : Marks) : MomentKind :=
  match m.time, m.date, m.zone with
  | true, true, true => .dateTime
  | true, true, false => .localDateTime
  | true, false, _ => .localTime
  | false, _, _ => .localDate

/-- The marks of a word, and its length. A blank before a digit belongs to the
first word that has one, with the two characters behind it. The fuel bounds the
characters. -/
def scan : Nat → Nat → Marks → List Char → Marks × Nat
  | 0, i, m, _ => (m, i)
  | _, i, m, [] => (m, i)
  | fuel + 1, i, m, c :: rest =>
    if c.isDigit then scan fuel (i + 1) m rest
    else if c = '-' then scan fuel (i + 1) { m with date := true, zone := m.zone || 8 ≤ i } rest
    else if "Tt:.".contains c then scan fuel (i + 1) { m with time := true } rest
    else if "+Zz".contains c then scan fuel (i + 1) { m with zone := true } rest
    else if c = ' ' && !m.blank && rest.head?.any Char.isDigit then
      let n := min 2 rest.length
      scan fuel (i + 1 + n) { m with time := true, blank := true } (rest.drop n)
    else (m, i)

end Marks

/-- Whether a date or time starts here rather than a number. -/
def startsMoment (cs : List Char) : Bool :=
  let digits := ((cs.take 5).takeWhile Char.isDigit).length
  (digits = 2 && cs[2]? = some ':') || (digits = 4 && cs[4]? = some '-')

/-! Dates and times -/

/-- The number that `n` digits form, and what follows them. -/
def digits? (n : Nat) (cs : List Char) : Option (Nat × List Char) :=
  let digits := cs.take n
  if digits.length = n && digits.all Char.isDigit then
    some (digits.foldl (fun x d => 10 * x + (d.toNat - '0'.toNat)) 0, cs.drop n)
  else none

/-- What follows a given character. -/
def behind? (c : Char) (cs : List Char) : Option (List Char) :=
  if cs.head? = some c then some cs.tail else none

/-- What follows a date. -/
def date? (cs : List Char) : Option (List Char) := do
  let (year, cs) ← digits? 4 cs
  let (month, cs) ← digits? 2 (← behind? '-' cs)
  let (day, cs) ← digits? 2 (← behind? '-' cs)
  if Calendar.isDate year month day then some cs else none

/-- What follows a time of day. -/
def time? (cs : List Char) : Option (List Char) := do
  let (hour, cs) ← digits? 2 cs
  let (minute, cs) ← digits? 2 (← behind? ':' cs)
  let (second, cs) ← digits? 2 (← behind? ':' cs)
  if 23 < hour || 59 < minute || 60 < second then none
  else
    match cs with
    | '.' :: rest =>
      if rest.head?.any Char.isDigit then some (rest.dropWhile Char.isDigit) else none
    | _ => some cs

/-- What follows a date and a time. -/
def dateTime? (cs : List Char) : Option (List Char) := do
  let rest ← date? cs
  if rest.head?.any fun c => c = 'T' || c = 't' || c = ' ' then time? rest.tail else none

/-- Whether a word is the offset of a time zone. -/
def isZone (cs : List Char) : Bool :=
  match cs with
  | ['Z'] | ['z'] => true
  | sign :: rest =>
    (sign = '+' || sign = '-') && (do
      let (hours, rest) ← digits? 2 rest
      let (minutes, rest) ← digits? 2 (← behind? ':' rest)
      return (hours ≤ 23 && minutes ≤ 59 && rest.isEmpty : Bool)).getD false
  | [] => false

/-- Whether there is the date or time that a word is meant to be. -/
def MomentKind.holds (cs : List Char) : MomentKind → Bool
  | .localDate => date? cs = some []
  | .localTime => time? cs = some []
  | .localDateTime => dateTime? cs = some []
  | .dateTime => (dateTime? cs).any isZone

end ClassLang.Settings.Toml

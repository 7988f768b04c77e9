/-!
Integers of 64 bits as people write them: with a sign, in a base that the start
of the number tells, and with underscores between digits.
-/

namespace ClassLang.Number

/-- Why a text is no integer. -/
inductive WordFault where
  | malformed
  | tooLarge
  deriving DecidableEq, Repr

/-- The number of words of 64 bits. -/
def wordLimit : Nat := 18446744073709551616

/-- The number of words that stand for negative integers. -/
def signLimit : Nat := 9223372036854775808

/-- The value of a digit in bases up to 36. -/
def digitValue? (c : Char) : Option Nat :=
  if c.isDigit then some (c.toNat - '0'.toNat)
  else if c.toLower.isAlpha then some (c.toLower.toNat - 'a'.toNat + 10)
  else none

/-- The base of a number without its sign, and the digits that count: a number
that starts with `0` is binary, octal or hexadecimal. -/
def splitBase : List Char → Nat × List Char
  | '0' :: c :: d :: rest =>
    match c.toLower with
    | 'b' => (2, d :: rest)
    | 'o' => (8, d :: rest)
    | 'x' => (16, d :: rest)
    | _ => (8, c :: d :: rest)
  | '0' :: rest => (8, rest)
  | digits => (10, digits)

/-- The number behind `n` that digits continue. Underscores are passed over, and
a number of more than 64 bits is too large. -/
def readDigits (base : Nat) : Nat → List Char → Except WordFault Nat
  | n, [] => .ok n
  | n, '_' :: rest => readDigits base n rest
  | n, c :: rest =>
    match digitValue? c with
    | none => .error .malformed
    | some d =>
      if base ≤ d then .error .malformed
      else if wordLimit ≤ n * base + d then .error .tooLarge
      else readDigits base (n * base + d) rest

/-- Whether every underscore stands between two digits. `afterDigit` tells whether
a digit comes right before the characters. -/
def underscoresOk (isDigit : Char → Bool) : Bool → List Char → Bool
  | _, [] => true
  | afterDigit, '_' :: rest =>
    afterDigit && (rest.head?.map isDigit).getD false && underscoresOk isDigit false rest
  | _, c :: rest => underscoresOk isDigit (isDigit c) rest

/-- Whether the underscores of a number without its sign are in place. The start
that tells the base counts as a digit. -/
def separated : List Char → Bool
  | '0' :: c :: rest =>
    match c.toLower with
    | 'x' => underscoresOk (fun d => (digitValue? d).any (· < 16)) true rest
    | 'b' | 'o' => underscoresOk Char.isDigit true rest
    | _ => underscoresOk Char.isDigit false ('0' :: c :: rest)
  | digits => underscoresOk Char.isDigit false digits

/-- The integer of 64 bits that a text is. -/
def readWord (s : String) : Except WordFault Int :=
  let (neg, digits) :=
    match s.toList with
    | '-' :: rest => (true, rest)
    | '+' :: rest => (false, rest)
    | cs => (false, cs)
  if digits.isEmpty then .error .malformed
  else
    let (base, counted) := splitBase digits
    match readDigits base 0 counted with
    | .error e => .error e
    | .ok n =>
      if !separated digits then .error .malformed
      else if neg then if signLimit < n then .error .tooLarge else .ok (-(n : Int))
      else if signLimit ≤ n then .error .tooLarge
      else .ok n

end ClassLang.Number

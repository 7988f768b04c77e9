import ClassLang.Text.Quoted
import ClassLang.Tree

/-!
Values known when a unit is compiled. Integers have no bound here and floats
are exact fractions; both are cut to machine words only when code is made.
-/

namespace ClassLang

/-- The value of a constant. -/
inductive Constant where
  | int (n : Int)
  | float (q : Rat)
  | bool (b : Bool)
  | str (s : String)
  deriving DecidableEq, Repr, Inhabited

namespace Constant

/-- The value of a digit in any base up to sixteen. -/
def digitValue (c : Char) : Nat :=
  if '0' ≤ c && c ≤ '9' then c.toNat - '0'.toNat
  else if 'a' ≤ c && c ≤ 'f' then c.toNat - 'a'.toNat + 10
  else if 'A' ≤ c && c ≤ 'F' then c.toNat - 'A'.toNat + 10
  else 16

/-- The number that the digits `cs` write in `base`, unless one of them is too
large for the base. -/
def ofDigits? (base : Nat) (cs : List Char) : Option Nat :=
  cs.foldl (fun acc c => do
    let n ← acc
    let d := digitValue c
    if d < base then some (n * base + d) else none) (some 0)

/-- The integer a literal stands for. The mark `0x` starts a hexadecimal
number, and any other leading zero an octal one. -/
def ofIntLiteral? (text : String) : Option Int :=
  match text.toList with
  | '0' :: 'x' :: digits | '0' :: 'X' :: digits =>
    if digits.isEmpty then none else (ofDigits? 16 digits).map Int.ofNat
  | '0' :: digit :: digits => (ofDigits? 8 (digit :: digits)).map Int.ofNat
  | digits => if digits.isEmpty then none else (ofDigits? 10 digits).map Int.ofNat

/-- The smallest and the largest integer of the language. -/
def minInt : Int := -9223372036854775808

@[inherit_doc minInt]
def maxInt : Int := 9223372036854775807

/-- A decimal taken apart: all its digits without the point, the number of those
behind the point, and the power of ten that is written behind them. -/
structure Decimal where
  digits : Nat
  places : Nat
  written : Int
  deriving Repr

namespace Decimal

/-- The sign and digits of a power of ten. -/
def powerValue : List Char → Int
  | '-' :: digits => -((ofDigits? 10 digits).getD 0 : Nat)
  | '+' :: digits => ((ofDigits? 10 digits).getD 0 : Nat)
  | digits => ((ofDigits? 10 digits).getD 0 : Nat)

/-- The parts of a decimal. -/
def ofLiteral (text : String) : Decimal :=
  let isMark (c : Char) : Bool := c = 'e' || c = 'E'
  let cs := text.toList
  let mantissa := cs.takeWhile (!isMark ·)
  let whole := mantissa.takeWhile (· ≠ '.')
  let fraction := (mantissa.dropWhile (· ≠ '.')).drop 1
  { digits := (ofDigits? 10 (whole ++ fraction)).getD 0
    places := fraction.length
    written := powerValue ((cs.dropWhile (!isMark ·)).drop 1) }

/-- The power of ten that scales the digits. -/
def exponent (d : Decimal) : Int := d.written - d.places

/-- The number of bits of the digits. -/
def bitLength (d : Decimal) : Nat := if d.digits = 0 then 0 else d.digits.log2 + 1

/-- The exact value of a decimal. -/
def toRat (d : Decimal) : Rat :=
  if 0 ≤ d.exponent then ((d.digits * Nat.pow 10 d.exponent.toNat : Nat) : Rat)
  else mkRat d.digits (Nat.pow 10 (-d.exponent).toNat)

/-- The logarithm of the digits to base two, in units of `10 ^ -16` and rounded
down to the 64th part of a bit. -/
def digitsLog (d : Decimal) : Int := (Nat.pow d.digits 64).log2 * 156250000000000

/-- The logarithm of a decimal to base two, in units of `10 ^ -16`. A decimal
place takes 3.3219280948873623 bits. -/
def log (d : Decimal) : Int := d.digitsLog + d.exponent * 33219280948873623

end Decimal

/-- The least and the greatest exponent of a number in binary, for numbers from
one half up to one. -/
def minExponent : Int := -2147483648

@[inherit_doc minExponent]
def maxExponent : Int := 2147483647

/-- The exact value of a float literal. A literal is read as its digits scaled by
a power of two and then by one of five, so the first of these is bounded as well
as the number itself. A number too large is refused, and one too small is zero. -/
def ofFloatLiteral? (text : String) : Option Rat :=
  let d := Decimal.ofLiteral text
  let scaled := d.bitLength + d.exponent
  let unit : Int := 10000000000000000
  if d.written < minInt || maxInt < d.written then none
  else if d.digits = 0 then some 0
  else if scaled < minExponent || maxExponent < scaled then none
  else if maxExponent * unit ≤ d.log then none
  else if d.log < (minExponent - 1) * unit then some 0
  else some d.toRat

/-- Whether a constant is an integer outside the range of the language. -/
def overflows : Constant → Bool
  | .int n => n < minInt || maxInt < n
  | _ => false

/-- A constant as messages and listings show it: a fraction in lowest terms,
a text in quotes. -/
def text : Constant → String
  | .int n => toString n
  | .float q => if q.den = 1 then toString q.num else s!"{q.num}/{q.den}"
  | .bool b => if b then "true" else "false"
  | .str s => Text.quote s

/-- Whether a constant is the number zero. -/
def isZero : Constant → Bool
  | .int n => n = 0
  | .float q => q = 0
  | _ => false

/-- The value of an operation on one constant. -/
def unary : UnaryOp → Constant → Option Constant
  | .neg, .int n => some (.int (-n))
  | .neg, .float q => some (.float (-q))
  | .not, .bool b => some (.bool !b)
  | _, _ => none

/-- The outcome of a comparison, given how its operands are ordered. -/
def orderTest : BinaryOp → Ordering → Option Bool
  | .eql, o => some (o == .eq)
  | .neq, o => some (o != .eq)
  | .lss, o => some (o == .lt)
  | .leq, o => some (o != .gt)
  | .gtr, o => some (o == .gt)
  | .geq, o => some (o != .lt)
  | _, _ => none

/-- The order of two fractions. -/
def compareRat (p q : Rat) : Ordering :=
  if p < q then .lt else if p = q then .eq else .gt

/-- The quotient of two machine words without its fraction. The smallest integer
divided by -1 is itself again. -/
def quotient (m n : Int) : Int := (m.tdiv n).bmod 18446744073709551616

/-- The value of an operation on two integers. -/
def binaryInt (op : BinaryOp) (m n : Int) : Option Constant :=
  match op with
  | .add => some (.int (m + n))
  | .sub => some (.int (m - n))
  | .mul => some (.int (m * n))
  | .div => some (.int (quotient m n))
  | .rem => some (.int (m.tmod n))
  | _ => (orderTest op (compare m n)).map .bool

/-- The value of an operation on two fractions. -/
def binaryFloat (op : BinaryOp) (p q : Rat) : Option Constant :=
  match op with
  | .add => some (.float (p + q))
  | .sub => some (.float (p - q))
  | .mul => some (.float (p * q))
  | .div => some (.float (p / q))
  | _ => (orderTest op (compareRat p q)).map .bool

/-- The value of an operation on two constants of one type. -/
def binary (op : BinaryOp) : Constant → Constant → Option Constant
  | .int m, .int n => binaryInt op m n
  | .float p, .float q => binaryFloat op p q
  | .bool a, .bool b =>
    match op with
    | .or => some (.bool (a || b))
    | .and => some (.bool (a && b))
    | .eql => some (.bool (a == b))
    | .neq => some (.bool (a != b))
    | _ => none
  | .str s, .str t =>
    match op with
    | .eql => some (.bool (s == t))
    | .neq => some (.bool (s != t))
    | _ => none
  | _, _ => none

end Constant

end ClassLang

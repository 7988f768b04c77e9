import ClassLang.Constant

/-!
Floating-point numbers of 64 bits. A number is kept as its bits: one for the
sign, eleven for the exponent and 52 for the fraction. Every operation takes the
exact result and rounds it to the nearest number, and a result halfway between
two numbers to the one whose last bit is zero.
-/

namespace ClassLang

/-- A floating-point number, given by its bits. -/
structure Double where
  bits : UInt64
  deriving DecidableEq, Repr, Inhabited

namespace Double

/-- What a number stands for. A finite number is `m * 2 ^ e` with a sign. -/
inductive View where
  | nan
  | infinite (neg : Bool)
  | finite (neg : Bool) (m : Nat) (e : Int)
  deriving DecidableEq, Repr

/-- The number of bits of the fraction. -/
def fractionBits : Nat := 52

/-- The exponent field of infinite numbers. -/
def maxField : Nat := 2047

/-- The exponent of the smallest positive number. -/
def minExponent : Int := -1074

/-- Whether the sign bit is set. -/
def isNegative (x : Double) : Bool := Nat.pow 2 63 ≤ x.bits.toNat

/-- The exponent field. -/
def exponentField (x : Double) : Nat := x.bits.toNat / Nat.pow 2 fractionBits % Nat.pow 2 11

/-- The fraction field. -/
def fractionField (x : Double) : Nat := x.bits.toNat % Nat.pow 2 fractionBits

/-- What a number stands for. -/
def view (x : Double) : View :=
  if x.exponentField = maxField then
    if x.fractionField = 0 then .infinite x.isNegative else .nan
  else if x.exponentField = 0 then .finite x.isNegative x.fractionField minExponent
  else
    .finite x.isNegative (Nat.pow 2 fractionBits + x.fractionField)
      (x.exponentField - 1 + minExponent)

/-- A number given by its sign and its other bits. -/
def ofMagnitude (neg : Bool) (n : Nat) : Double :=
  ⟨UInt64.ofNat ((if neg then Nat.pow 2 63 else 0) + n)⟩

/-- Zero of a given sign. -/
def zero (neg : Bool) : Double := ofMagnitude neg 0

/-- The bits of an infinite number without its sign. -/
def infiniteMagnitude : Nat := maxField * Nat.pow 2 fractionBits

/-- The infinite number of a given sign. -/
def infinity (neg : Bool) : Double := ofMagnitude neg infiniteMagnitude

/-- The result of an operation that has none. -/
def nan : Double := ofMagnitude false (infiniteMagnitude + Nat.pow 2 51 + 1)

/-! Rounding -/

/-- The fraction `n / (d * 2 ^ e)` as a quotient of two natural numbers. -/
def scale (n d : Nat) (e : Int) : Nat × Nat :=
  if 0 ≤ e then (n, d * Nat.pow 2 e.toNat) else (n * Nat.pow 2 (-e).toNat, d)

/-- The integer nearest to `n / d`, the even one of two that are equally near. -/
def nearest (n d : Nat) : Nat :=
  let q := n / d
  let r := n % d
  if d < 2 * r || (2 * r = d && q % 2 = 1) then q + 1 else q

/-- The exponent at which the fraction `n / d` is rounded: the least one at which
it has at most 53 bits. -/
def roundingExponent (n d : Nat) : Int :=
  let guess := max ((n.log2 : Int) - d.log2 - 53) minExponent
  let (a, b) := scale n d guess
  if Nat.pow 2 53 ≤ a / b then guess + 1 else guess

/-- The number nearest to the fraction `n / d` with a given sign. -/
def round (neg : Bool) (n d : Nat) : Double :=
  if n = 0 then zero neg
  else
    let e := roundingExponent n d
    let (a, b) := scale n d e
    let magnitude := (e - minExponent).toNat * Nat.pow 2 fractionBits + nearest a b
    ofMagnitude neg (min magnitude infiniteMagnitude)

/-- The number nearest to a fraction. -/
def ofRat (q : Rat) : Double := round (q < 0) q.num.natAbs q.den

/-- The value of a finite number. -/
def toRat (neg : Bool) (m : Nat) (e : Int) : Rat :=
  let (a, b) := scale m 1 (-e)
  mkRat (if neg then -(a : Int) else a) b

/-! Operations -/

/-- A number with the other sign. -/
def neg (x : Double) : Double := ⟨x.bits ^^^ 0x8000000000000000⟩

/-- The sum of two numbers. A sum of zero is positive unless both numbers are
negative zeros. -/
def add (x y : Double) : Double :=
  match x.view, y.view with
  | .nan, _ | _, .nan => nan
  | .infinite a, .infinite b => if a = b then x else nan
  | .infinite _, _ => x
  | _, .infinite _ => y
  | .finite a m e, .finite b n f =>
    let sum := toRat a m e + toRat b n f
    if sum = 0 then zero (a && b) else ofRat sum

/-- The difference of two numbers. -/
def sub (x y : Double) : Double := x.add y.neg

/-- The product of two numbers. -/
def mul (x y : Double) : Double :=
  match x.view, y.view with
  | .nan, _ | _, .nan => nan
  | .infinite a, .infinite b => infinity (a != b)
  | .infinite a, .finite b n _ => if n = 0 then nan else infinity (a != b)
  | .finite a m _, .infinite b => if m = 0 then nan else infinity (a != b)
  | .finite a m e, .finite b n f =>
    let (p, q) := scale (m * n) 1 (-(e + f))
    round (a != b) p q

/-- The quotient of two numbers. -/
def div (x y : Double) : Double :=
  match x.view, y.view with
  | .nan, _ | _, .nan => nan
  | .infinite _, .infinite _ => nan
  | .infinite a, .finite b _ _ => infinity (a != b)
  | .finite a _ _, .infinite b => zero (a != b)
  | .finite a m e, .finite b n f =>
    if n = 0 then if m = 0 then nan else infinity (a != b)
    else
      let (p, q) := scale m n (f - e)
      round (a != b) p q

/-- How two numbers are ordered. A number that is not one is not ordered, and
the two zeros are equal. -/
def compare? (x y : Double) : Option Ordering :=
  match x.view, y.view with
  | .nan, _ | _, .nan => none
  | .infinite a, .infinite b =>
    some (if a = b then .eq else if a then .lt else .gt)
  | .infinite a, _ => some (if a then .lt else .gt)
  | _, .infinite b => some (if b then .gt else .lt)
  | .finite a m e, .finite b n f =>
    some (Constant.compareRat (toRat a m e) (toRat b n f))

/-- Whether two numbers are equal. -/
def equal (x y : Double) : Bool := x.compare? y = some .eq

/-- Whether a number is less than another. -/
def less (x y : Double) : Bool := x.compare? y = some .lt

/-- Whether a number is less than another or equal to it. -/
def lessEqual (x y : Double) : Bool := x.less y || x.equal y

/-! Reading -/

/-- The number nearest to a decimal. No number but zero has more than 400 places
before or behind the point before its digits start, so the power of ten is not
taken there. -/
def ofDecimal (neg : Bool) (d : Constant.Decimal) : Double :=
  let magnitude := d.exponent + (Nat.toDigits 10 d.digits).length
  if d.digits = 0 then zero neg
  else if 400 < magnitude then infinity neg
  else if magnitude < -400 then zero neg
  else round neg d.toRat.num.natAbs d.toRat.den

/-- The number that a text stands for: a decimal, or one of the words for
numbers that are not finite. -/
def ofText (text : String) : Double :=
  let (neg, body) :=
    match text.toList with
    | '-' :: rest => (true, String.ofList rest)
    | '+' :: rest => (false, String.ofList rest)
    | cs => (false, String.ofList cs)
  match body with
  | "NaN" => nan
  | "Inf" => infinity neg
  | _ => ofDecimal neg (Constant.Decimal.ofLiteral body)

end Double

end ClassLang

import ClassLang.Number.Double

/-!
The shortest decimal that reads back as a given floating-point number, and the
forms in which listings show it.
-/

namespace ClassLang

/-- A decimal `0.d₁d₂… * 10 ^ point`, given by its digits. -/
structure Digits where
  digits : List Char
  point : Int
  deriving Repr

namespace Double

/-- The numbers that read back as `m * 2 ^ e` lie between these two fractions,
given in quarters of `2 ^ e`. Below a power of two the gap is half as wide. -/
def gap (m : Nat) (e : Int) : Nat × Nat :=
  let low := if m = Nat.pow 2 fractionBits && minExponent < e then 4 * m - 1 else 4 * m - 2
  (low, 4 * m + 2)

/-- `m * 2 ^ e / 10 ^ k` as a quotient of two natural numbers. -/
def onGrid (m : Nat) (e k : Int) : Nat × Nat :=
  let (a, b) := scale m 1 (-e)
  if 0 ≤ k then (a, b * Nat.pow 10 k.toNat) else (a * Nat.pow 10 (-k).toNat, b)

/-- Whether `c * 10 ^ k` reads back as `m * 2 ^ e`. The ends of the gap do if `m`
is even. -/
def readsBack (m : Nat) (e k : Int) (c : Nat) : Bool :=
  let (low, high) := gap m e
  let (a, b) := onGrid low (e - 2) k
  let (p, q) := onGrid high (e - 2) k
  if m % 2 = 0 then a ≤ c * b && c * q ≤ p else a < c * b && c * q < p

/-- The multiple of `10 ^ k` that reads back as `m * 2 ^ e`, if one of the two
next to it does. If both do, the nearer one is taken, and the even one of two
that are equally near. -/
def gridPoint? (m : Nat) (e k : Int) : Option Nat :=
  let (a, b) := onGrid m e k
  let down := a / b
  let up := if a % b = 0 then down else down + 1
  match readsBack m e k down, readsBack m e k up with
  | true, true => some (nearest a b)
  | true, false => some down
  | false, true => some up
  | false, false => none

/-- The exponent of the first digit of `m * 2 ^ e`, found by trying the `tries`
numbers from `guess` on. -/
def firstExponent (m : Nat) (e : Int) : Nat → Int → Int
  | 0, guess => guess
  | tries + 1, guess =>
    let (a, b) := onGrid m e (guess + 1)
    if a < b then guess else firstExponent m e tries (guess + 1)

/-- An estimate from below of the exponent of the first digit: a bit is worth
about 0.30103 places. -/
def exponentGuess (m : Nat) (e : Int) : Int := ((m.log2 : Int) + e) * 30103 / 100000 - 1

/-- The shortest multiple of a power of ten that reads back, trying `tries` more
places from `10 ^ k` downwards. -/
def search (m : Nat) (e : Int) : Nat → Int → Nat × Int
  | 0, k => let (a, b) := onGrid m e k; (nearest a b, k)
  | tries + 1, k =>
    match gridPoint? m e k with
    | some c => (c, k)
    | none => search m e tries (k - 1)

/-- The digits of a positive number. Seventeen are always enough. -/
def shortest (m : Nat) (e : Int) : Digits :=
  let first := firstExponent m e 3 (exponentGuess m e)
  let (c, k) := search m e 16 first
  let digits := Nat.toDigits 10 c
  let trimmed := (digits.reverse.dropWhile (· = '0')).reverse
  ⟨trimmed, digits.length + k⟩

end Double

/-! Forms -/

namespace Digits

/-- The number that digits stand for. -/
def toRat (d : Digits) : Rat :=
  let n := d.digits.foldl (fun n c => 10 * n + (c.toNat - '0'.toNat)) 0
  let e := d.point - d.digits.length
  if 0 ≤ e then mkRat ((n * Nat.pow 10 e.toNat : Nat) : Int) 1
  else mkRat n (Nat.pow 10 (-e).toNat)

/-- The digits with a point behind the first and an exponent of at least two
places. -/
def scientific (d : Digits) : String :=
  let e := d.point - 1
  let places := toString e.natAbs
  let exponent := (if e < 0 then "e-" else "e+") ++ (if e.natAbs < 10 then "0" else "") ++ places
  match d.digits with
  | [] => "0" ++ exponent
  | [c] => String.singleton c ++ exponent
  | c :: rest => String.singleton c ++ "." ++ String.ofList rest ++ exponent

/-- The digits without an exponent. -/
def positional (d : Digits) : String :=
  if d.point ≤ 0 then
    "0." ++ String.ofList (List.replicate (-d.point).toNat '0' ++ d.digits)
  else
    let n := d.point.toNat
    let whole := d.digits.take n ++ List.replicate (n - d.digits.length) '0'
    let fraction := d.digits.drop n
    String.ofList whole ++ (if fraction.isEmpty then "" else "." ++ String.ofList fraction)

/-- The form for listings: numbers from `10 ^ -4` to `10 ^ 6` have no exponent. -/
def text (d : Digits) : String :=
  if d.point < -3 || 6 < d.point then d.scientific else d.positional

end Digits

namespace Double

/-- A number as listings show it. -/
def text (x : Double) : String :=
  match x.view with
  | .nan => "NaN"
  | .infinite neg => if neg then "-Inf" else "+Inf"
  | .finite neg m e =>
    (if neg then "-" else "") ++ (if m = 0 then "0" else (shortest m e).text)

end Double

end ClassLang

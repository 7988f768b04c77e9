/-!
Decoding of UTF-8 text that may be damaged. A byte that starts no well-formed
sequence stands for one replacement character of its own, so that every byte
of the input belongs to exactly one character.
-/

namespace ClassLang.Utf8

/-- One character of a text. `wellFormed` is false for the replacement
character that stands for a byte which could not be decoded. -/
structure Rune where
  char : Char
  wellFormed : Bool
  deriving DecidableEq, Repr, Inhabited

/-- The character U+FFFD, shown in place of bytes that are not UTF-8. -/
def replacement : Char := '\uFFFD'

/-- Whether `b` lies in the closed range from `low` to `high`. -/
def within (low high : Nat) (b : UInt8) : Bool :=
  low ≤ b.toNat && b.toNat ≤ high

/-- The six payload bits of a continuation byte. -/
def payload (b : UInt8) : Nat := b.toNat % 64

/-- The scalar value of the sequence that starts with `lead`, with the number
of continuation bytes it uses. The admitted ranges of the second byte leave
out overlong forms, surrogates and values above 0x10FFFF. -/
def decodeFirst (lead : UInt8) (rest : List UInt8) : Option (Nat × Nat) :=
  let n := lead.toNat
  if n < 0x80 then some (n, 0)
  else if within 0xC2 0xDF lead then
    match rest with
    | a :: _ =>
      if within 0x80 0xBF a then some ((n - 0xC0) * 64 + payload a, 1) else none
    | [] => none
  else if within 0xE0 0xEF lead then
    let low := if n = 0xE0 then 0xA0 else 0x80
    let high := if n = 0xED then 0x9F else 0xBF
    match rest with
    | a :: b :: _ =>
      if within low high a && within 0x80 0xBF b then
        some (((n - 0xE0) * 64 + payload a) * 64 + payload b, 2)
      else none
    | _ => none
  else if within 0xF0 0xF4 lead then
    let low := if n = 0xF0 then 0x90 else 0x80
    let high := if n = 0xF4 then 0x8F else 0xBF
    match rest with
    | a :: b :: c :: _ =>
      if within low high a && within 0x80 0xBF b && within 0x80 0xBF c then
        some ((((n - 0xF0) * 64 + payload a) * 64 + payload b) * 64 + payload c, 3)
      else none
    | _ => none
  else none

/-- A part of a text: a character, or a byte that could not be decoded. -/
inductive Piece where
  | char (c : Char)
  | byte (b : UInt8)
  deriving DecidableEq, Repr

/-- The pieces of a text, where the first `skip` bytes already belong to the
piece before. -/
def piecesFrom : List UInt8 → Nat → List Piece
  | [], _ => []
  | _ :: rest, skip + 1 => piecesFrom rest skip
  | lead :: rest, 0 =>
    match decodeFirst lead rest with
    | some (scalar, extra) => .char (Char.ofNat scalar) :: piecesFrom rest extra
    | none => .byte lead :: piecesFrom rest 0

/-- The pieces of a text. -/
def pieces (bytes : List UInt8) : List Piece := piecesFrom bytes 0

/-- The rune that shows a piece. -/
def Piece.rune : Piece → Rune
  | .char c => ⟨c, true⟩
  | .byte _ => ⟨replacement, false⟩

/-- The runes of a text. -/
def runes (bytes : List UInt8) : List Rune := (pieces bytes).map Piece.rune

/-- The text of a byte string, damaged bytes replaced. -/
def decode (bytes : List UInt8) : String :=
  String.ofList ((runes bytes).map (·.char))

/-- The UTF-8 bytes of a text. -/
def encode (text : String) : List UInt8 := text.toUTF8.toList

end ClassLang.Utf8

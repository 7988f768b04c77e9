import ClassLang.Text.Printable
import ClassLang.Text.Utf8

/-!
Quoted text: a text between quotes in which every character that has no visible
form is written as an escape.
-/

namespace ClassLang.Text

/-- The `width` lowest hexadecimal digits of `n`, most significant first. -/
def hexDigits (n width : Nat) : String :=
  let digits := Nat.toDigits 16 n
  String.ofList (List.replicate (width - digits.length) '0' ++ digits)

/-- The escapes of the control characters that have a letter of their own. -/
def controlLetter : Char → Option Char
  | '\x07' => some 'a'
  | '\x08' => some 'b'
  | '\x0C' => some 'f'
  | '\n' => some 'n'
  | '\r' => some 'r'
  | '\t' => some 't'
  | '\x0B' => some 'v'
  | _ => none

/-- One character of a quoted text that is closed by `quote`. -/
def escapeChar (quote c : Char) : String :=
  if c = quote || c = '\\' then String.ofList ['\\', c]
  else if isPrintable c then String.singleton c
  else
    match controlLetter c with
    | some letter => String.ofList ['\\', letter]
    | none =>
      if c.toNat < 0x80 then "\\x" ++ hexDigits c.toNat 2
      else if c.toNat < 0x10000 then "\\u" ++ hexDigits c.toNat 4
      else "\\U" ++ hexDigits c.toNat 8

/-- A text in double quotes. -/
def quote (s : String) : String :=
  "\"" ++ String.join (s.toList.map (escapeChar '"')) ++ "\""

/-- A text that may be damaged in double quotes. A byte that could not be decoded
is written as an escape. -/
def quoteBytes (bytes : List UInt8) : String :=
  let part : Utf8.Piece → String
    | .char c => escapeChar '"' c
    | .byte b => "\\x" ++ hexDigits b.toNat 2
  "\"" ++ String.join ((Utf8.pieces bytes).map part) ++ "\""

/-- A character in single quotes. -/
def quoteChar (c : Char) : String :=
  "'" ++ escapeChar '\'' c ++ "'"

end ClassLang.Text

/-!
The tokens of the language: names, literals, operators, delimiters and keywords.
-/

namespace ClassLang

/-- The class of a token. -/
inductive Token where
  | eof | name | literal
  | assign | orOr | andAnd
  | eql | neq | lss | leq | gtr | geq
  | add | sub | mul | div | rem | not
  | lparen | rparen | lbrack | rbrack | lbrace | rbrace
  | comma | semi | colon | dot
  | kwBound | kwClass | kwConst | kwElse | kwExtern | kwFor | kwFun | kwIf | kwIn
  | kwInit | kwLet | kwReturn | kwWhile
  deriving DecidableEq, Repr, Inhabited

namespace Token

/-- Every token, in the order of their codes. -/
def all : List Token :=
  [.eof, .name, .literal, .assign, .orOr, .andAnd, .eql, .neq, .lss, .leq, .gtr, .geq,
   .add, .sub, .mul, .div, .rem, .not, .lparen, .rparen, .lbrack, .rbrack, .lbrace,
   .rbrace, .comma, .semi, .colon, .dot, .kwBound, .kwClass, .kwConst, .kwElse,
   .kwExtern, .kwFor, .kwFun, .kwIf, .kwIn, .kwInit, .kwLet, .kwReturn, .kwWhile]

/-- The spelling of a token, and a description for the classes that have many
spellings. -/
def text : Token → String
  | .eof => "EOF"
  | .name => "NAME"
  | .literal => "LITERAL"
  | .assign => "="
  | .orOr => "||"
  | .andAnd => "&&"
  | .eql => "=="
  | .neq => "!="
  | .lss => "<"
  | .leq => "<="
  | .gtr => ">"
  | .geq => ">="
  | .add => "+"
  | .sub => "-"
  | .mul => "*"
  | .div => "/"
  | .rem => "%"
  | .not => "!"
  | .lparen => "("
  | .rparen => ")"
  | .lbrack => "["
  | .rbrack => "]"
  | .lbrace => "\x7b"
  | .rbrace => "\x7d"
  | .comma => ","
  | .semi => ";"
  | .colon => ":"
  | .dot => "."
  | .kwBound => "bound"
  | .kwClass => "class"
  | .kwConst => "const"
  | .kwElse => "else"
  | .kwExtern => "extern"
  | .kwFor => "for"
  | .kwFun => "fun"
  | .kwIf => "if"
  | .kwIn => "in"
  | .kwInit => "init"
  | .kwLet => "let"
  | .kwReturn => "return"
  | .kwWhile => "while"

/-- The text of the token with code `code`, also for codes of no token. -/
def textOfCode (code : Nat) : String :=
  match all[code]? with
  | some t => t.text
  | none => s!"token({code})"

/-- How tightly a binary operator binds, or zero for any other token. -/
def precedence : Token → Nat
  | .orOr => 1
  | .andAnd => 2
  | .eql | .neq => 3
  | .lss | .leq | .gtr | .geq => 4
  | .add | .sub => 5
  | .mul | .div | .rem => 6
  | _ => 0

/-- Whether a token is a reserved word. -/
def isKeyword : Token → Bool
  | .kwBound | .kwClass | .kwConst | .kwElse | .kwExtern | .kwFor | .kwFun | .kwIf
  | .kwIn | .kwInit | .kwLet | .kwReturn | .kwWhile => true
  | _ => false

/-- Whether a token is an operator, the sign of assignment included. -/
def isOperator : Token → Bool
  | .assign | .orOr | .andAnd | .eql | .neq | .lss | .leq | .gtr | .geq | .add | .sub
  | .mul | .div | .rem | .not => true
  | _ => false

/-- Whether a token is one of the four order relations. -/
def isOrdering : Token → Bool
  | .lss | .leq | .gtr | .geq => true
  | _ => false

/-- Whether a token compares two operands. -/
def isComparison : Token → Bool
  | .eql | .neq => true
  | t => t.isOrdering

/-- Whether a token is one of the two logical connectives. -/
def isLogical : Token → Bool
  | .orOr | .andAnd => true
  | _ => false

/-- The reserved words. The names of the basic types and of the truth values
are not among them. -/
def keywords : List Token := all.filter isKeyword

/-- The token of a word: its keyword, or a name. -/
def ofWord (word : String) : Token :=
  (keywords.find? (·.text == word)).getD .name

end Token

/-- The kind of a literal. -/
inductive LitKind where
  | int | float | string
  deriving DecidableEq, Repr, Inhabited

namespace LitKind

/-- Every kind, in the order of their codes. -/
def all : List LitKind := [.int, .float, .string]

/-- The name of a kind of literal. -/
def text : LitKind → String
  | .int => "int"
  | .float => "float"
  | .string => "string"

/-- The name of the kind with code `code`, also for codes of no kind. -/
def textOfCode (code : Nat) : String :=
  match all[code]? with
  | some k => k.text
  | none => s!"LitKind({code})"

end LitKind

end ClassLang

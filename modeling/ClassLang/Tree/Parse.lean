import ClassLang.Token.Scan
import ClassLang.Tree

/-!
Parsing by recursive descent. The parser never stops at a fault: it reports it,
skips to a token at which it can go on, and always returns a tree. After ten
faults it gives up; from then on nothing is reported, and the loops over
declarations, methods and statements end.

The fuel of the recursive functions bounds the length of a chain of calls, and a
step that runs out of it has no result. Between two tokens such a chain is short,
so a multiple of the number of tokens is enough for any text.
-/

namespace ClassLang

/-- What the parser reports: a fault and its place. -/
structure SyntaxError where
  pos : Pos
  message : String
  deriving DecidableEq, Repr, Inhabited

namespace SyntaxError

/-- A report as one line. -/
def text (e : SyntaxError) : String := e.pos.text ++ ": " ++ e.message

end SyntaxError

/-- The state of the parser: the current lexeme, the lexemes behind it, the
reports so far with the last one first, the number of faults, and the first of
them. -/
structure Parser where
  current : Lexeme
  rest : List Lexeme
  reports : List SyntaxError := []
  count : Nat := 0
  first : Option SyntaxError := none
  aborted : Bool := false
  deriving Inhabited

/-- A step of the parser, which has no result if its fuel runs out. -/
abbrev Parse (α : Type) := StateT Parser Option α

namespace Parse

/-- The number of faults after which the parser gives up. -/
def maxErrors : Nat := 10

/-- The report that follows the last fault. -/
def abortMessage : String := "too many errors; aborting parse"

/-- The parser after a fault has been reported. The last fault that counts
makes the current token the end of the text. -/
def fault (p : Parser) (e : SyntaxError) : Parser :=
  let first := if p.count = 0 then some e else p.first
  if p.aborted then p
  else if p.count + 1 < maxErrors then
    { p with count := p.count + 1, first, reports := e :: p.reports }
  else
    { p with
      count := p.count + 1
      first
      reports := ⟨e.pos, abortMessage⟩ :: e :: p.reports
      aborted := true
      current := { p.current with token := .eof } }

/-- The parser at the next lexeme, whose lexical faults are reported. The end
of the text follows itself. -/
def advance (p : Parser) : Parser :=
  match p.rest with
  | [] => { p with current := { p.current with token := .eof } }
  | l :: rest =>
    let p := l.faults.foldl (fun p e => fault p ⟨e.pos, e.fault.message⟩) p
    { p with current := l, rest }

/-- Goes to the next token. -/
def next : Parse Unit := modify advance

/-- The current token. -/
def token : Parse Token := return (← get).current.token

/-- The place of the current token. -/
def here : Parse Pos := return (← get).current.pos

/-- Whether the parser has given up. -/
def aborted : Parse Bool := return (← get).aborted

/-- Reports a fault at the current token. -/
def report (message : String) : Parse Unit :=
  modify fun p => fault p ⟨p.current.pos, message⟩

/-- The current token, as reports name it. -/
def found : Parse String := do
  let l := (← get).current
  match l.token with
  | .name => return "name " ++ l.text
  | .literal => return "literal " ++ l.text
  | t => return t.text

/-- Whether the parser can go on at a token without reading it. -/
def isSync : Token → Bool
  | .eof | .rbrace | .lbrace | .kwClass | .kwBound | .kwFun | .kwExtern | .kwConst
  | .kwLet | .kwIf | .kwWhile | .kwFor | .kwReturn => true
  | _ => false

/-- Skips at most `fuel` tokens, up to one at which the parser can go on. A
semicolon is skipped too, but nothing behind it. -/
def skip : Nat → Parse Unit
  | 0 => failure
  | fuel + 1 => do
    let t ← token
    if isSync t then return
    next
    if t = .semi then return
    skip fuel

/-- Skips to a token at which the parser can go on. -/
def recover : Parse Unit := do
  skip ((← get).rest.length + 2)

/-- Reads `t` if it is the current token. -/
def got (t : Token) : Parse Bool := do
  if (← token) = t then
    next
    return true
  else
    return false

/-- Reads `t`, or reports that it is missing. -/
def want (t : Token) : Parse Unit := do
  if !(← got t) then
    report s!"expected {t.text}, found {← found}"
    recover

/-- Reads a name; an underscore stands for a missing one. -/
def ident : Parse Ident := do
  let l := (← get).current
  if l.token = .name then
    next
    return ⟨l.pos, l.text⟩
  else
    report s!"expected name, found {← found}"
    return ⟨l.pos, "_"⟩

/-- Items separated by commas, each of which starts with a name. A comma may
follow the last one. -/
def commaList {α : Type} (item : Parse α) : Nat → Parse (List α)
  | 0 => failure
  | fuel + 1 => do
    if (← token) ≠ .name then return []
    let x ← item
    if !(← got .comma) then return [x]
    return x :: (← commaList item fuel)

/-- One or more items separated by commas. -/
def commaList1 {α : Type} (item : Parse α) : Nat → Parse (List α)
  | 0 => failure
  | fuel + 1 => do
    let x ← item
    if !(← got .comma) then return [x]
    return x :: (← commaList1 item fuel)

/-- A type: a name, or a name with arguments. -/
def type : Nat → Parse TypeExpr
  | 0 => failure
  | fuel + 1 => do
    let base ← ident
    if (← token) ≠ .lss then return .name base
    next
    let args ← commaList1 (type fuel) fuel
    want .gtr
    return .apply base args

mutual

/-- An expression whose operators bind tighter than `prec`. -/
def binary : Nat → Nat → Parse Expr
  | 0, _ => failure
  | fuel + 1, prec => do
    let x ← unary fuel
    binaryRest fuel prec x

/-- The operators behind `x` that bind tighter than `prec`, with their right
operands. Equal operators group to the left. -/
def binaryRest : Nat → Nat → Expr → Parse Expr
  | 0, _, _ => failure
  | fuel + 1, prec, x => do
    match BinaryOp.ofToken? (← token) with
    | none => return x
    | some op =>
      if op.precedence ≤ prec then return x
      next
      let y ← binary fuel op.precedence
      binaryRest fuel prec (.binary op x y)

/-- An operand with the signs in front of it. -/
def unary : Nat → Parse Expr
  | 0 => failure
  | fuel + 1 => do
    match UnaryOp.ofToken? (← token) with
    | none =>
      let x ← operand fuel
      suffixes fuel x
    | some op =>
      let pos ← here
      next
      let x ← unary fuel
      return .unary pos op x

/-- The calls and selections behind `x`. -/
def suffixes : Nat → Expr → Parse Expr
  | 0, _ => failure
  | fuel + 1, x => do
    match ← token with
    | .lparen =>
      want .lparen
      let args ←
        if (← token) ≠ .rparen then commaList1 (binary fuel 0) fuel else pure []
      want .rparen
      suffixes fuel (.call x args)
    | .dot =>
      next
      let sel ← ident
      suffixes fuel (.select x sel)
    | _ => return x

/-- A name, a literal, an initializer, or an expression in parentheses. -/
def operand : Nat → Parse Expr
  | 0 => failure
  | fuel + 1 => do
    let l := (← get).current
    match l.token with
    | .name =>
      next
      if (← token) = .colon then initializer fuel ⟨l.pos, l.text⟩
      else return .name ⟨l.pos, l.text⟩
    | .literal =>
      next
      return .literal l.pos l.kind l.text
    | .lparen =>
      next
      let x ← binary fuel 0
      want .rparen
      return .paren l.pos x
    | _ =>
      report s!"expected expression, found {← found}"
      return .name ⟨← here, "_"⟩

/-- The initializer of the class `cls`, after its name. -/
def initializer : Nat → Ident → Parse Expr
  | 0, _ => failure
  | fuel + 1, cls => do
    want .colon
    want .kwInit
    want .lparen
    let element : Parse (Ident × Expr) := do
      let key ← ident
      want .colon
      let value ← binary fuel 0
      return (key, value)
    let elems ← commaList element fuel
    want .rparen
    return .init cls elems

end

/-- An expression. -/
def expr (fuel : Nat) : Parse Expr := binary fuel 0

mutual

/-- A statement. -/
def stmt : Nat → Parse Stmt
  | 0 => failure
  | fuel + 1 => do
    let pos ← here
    match ← token with
    | .lbrace => return .block (← block fuel)
    | .kwLet =>
      want .kwLet
      let name ← ident
      want .colon
      let type ← type fuel
      want .assign
      let value ← expr fuel
      want .semi
      return .bind pos name type value
    | .kwIf => ifElse fuel
    | .kwWhile =>
      want .kwWhile
      let cond ← expr fuel
      return .whileLoop pos cond (← block fuel)
    | .kwFor =>
      want .kwFor
      let var ← ident
      want .kwIn
      let start ← here
      want .lbrack
      let low ← expr fuel
      want .comma
      let high ← expr fuel
      want .rbrack
      return .forLoop pos var ⟨start, low, high⟩ (← block fuel)
    | .kwReturn =>
      want .kwReturn
      let t ← token
      let result ←
        if t ≠ .semi && t ≠ .rbrace && t ≠ .eof then some <$> expr fuel else pure none
      want .semi
      return .ret pos result
    | .semi =>
      next
      return .empty pos
    | _ =>
      let x ← expr fuel
      if ← got .assign then
        let rhs ← expr fuel
        want .semi
        return .assign x rhs
      else
        want .semi
        return .expr x

/-- A conditional, with the conditionals chained to it. -/
def ifElse : Nat → Parse Stmt
  | 0 => failure
  | fuel + 1 => do
    let pos ← here
    want .kwIf
    let cond ← expr fuel
    let body ← block fuel
    if ← got .kwElse then
      if (← token) = .kwIf then
        return .ifElse pos cond body (some (← ifElse fuel))
      else
        return .ifElse pos cond body (some (.block (← block fuel)))
    else
      return .ifElse pos cond body none

/-- A block. -/
def block : Nat → Parse Block
  | 0 => failure
  | fuel + 1 => do
    let pos ← here
    want .lbrace
    let body ← stmts fuel
    let close ← here
    want .rbrace
    return .mk pos body close

/-- Statements up to the end of their block. A token at which no statement
makes progress is dropped. -/
def stmts : Nat → Parse (List Stmt)
  | 0 => failure
  | fuel + 1 => do
    let t ← token
    if (← aborted) || t = .rbrace || t = .eof then return []
    let start ← here
    let s ← stmt fuel
    if (← here) = start then next
    return s :: (← stmts fuel)

end

/-- Type parameters in angle brackets. -/
def typeParams (fuel : Nat) : Parse (List TypeParamDecl) := do
  want .lss
  let param : Parse TypeParamDecl := do
    let name ← ident
    let bound ← if ← got .colon then some <$> ident else pure none
    return ⟨name, bound⟩
  let list ← commaList param fuel
  want .gtr
  return list

/-- A field or parameter. -/
def field (fuel : Nat) : Parse FieldDecl := do
  let name ← ident
  want .colon
  return ⟨name, ← type fuel⟩

/-- The receiver of the method `name`, which has no type. -/
def receiver (fuel : Nat) (name : Ident) : Parse (Option Ident) := do
  if (← token) ≠ .name then
    report s!"method {name.text} must declare a receiver"
    return none
  let recv ← ident
  if (← token) = .colon then
    report s!"receiver {recv.text} must not have a type"
    next
    discard (type fuel)
  if (← token) ≠ .rparen then want .comma
  return some recv

/-- The header of a function. Inside a class or bound, `member` is true and the
first parameter is the receiver. -/
def signature (fuel : Nat) (member : Bool) : Parse FuncDecl := do
  let pos ← here
  want .kwFun
  let name ← ident
  let tparams ← if (← token) = .lss then typeParams fuel else pure []
  want .lparen
  let recv ← if member then receiver fuel name else pure none
  let params ← commaList (field fuel) fuel
  want .rparen
  let result ← if ← got .colon then some <$> type fuel else pure none
  return { pos, name, recv, tparams, params, result, body := none, host := false }

/-- A function or method with its body. -/
def funcDecl (fuel : Nat) (member : Bool) : Parse FuncDecl := do
  let d ← signature fuel member
  return { d with body := some (← block fuel) }

/-- A host function, which has no body. -/
def hostDecl (fuel : Nat) : Parse FuncDecl := do
  let pos ← here
  want .kwExtern
  let d ← signature fuel false
  discard (got .semi)
  return { d with pos, host := true }

/-- Declarations read by `item` as long as they start with the keyword of a
function. -/
def members (item : Parse FuncDecl) : Nat → Parse (List FuncDecl)
  | 0 => failure
  | fuel + 1 => do
    if (← aborted) || (← token) ≠ .kwFun then return []
    let d ← item
    return d :: (← members item fuel)

/-- A class. -/
def classDecl (fuel : Nat) : Parse ClassDecl := do
  let pos ← here
  want .kwClass
  let name ← ident
  let tparams ← if (← token) = .lss then typeParams fuel else pure []
  let parent ← if ← got .colon then some <$> ident else pure none
  want .lbrace
  let fields ← commaList (field fuel) fuel
  let methods ← members (funcDecl fuel true) fuel
  want .rbrace
  return { pos, name, tparams, parent, fields, methods }

/-- A bound. -/
def boundDecl (fuel : Nat) : Parse BoundDecl := do
  let pos ← here
  want .kwBound
  let name ← ident
  want .lbrace
  let method : Parse FuncDecl := do
    let d ← signature fuel true
    want .semi
    return d
  let methods ← members method fuel
  want .rbrace
  return { pos, name, methods }

/-- A constant. -/
def constDecl (fuel : Nat) : Parse ConstDecl := do
  let pos ← here
  want .kwConst
  let name ← ident
  want .colon
  let type ← type fuel
  want .assign
  let value ← expr fuel
  want .semi
  return { pos, name, type, value }

/-- A declaration, if the current token starts one. -/
def decl (fuel : Nat) : Parse (Option Decl) := do
  match ← token with
  | .kwClass => return some (.cls (← classDecl fuel))
  | .kwBound => return some (.bound (← boundDecl fuel))
  | .kwFun => return some (.func (← funcDecl fuel false))
  | .kwExtern => return some (.func (← hostDecl fuel))
  | .kwConst => return some (.const (← constDecl fuel))
  | _ =>
    report s!"expected class, bound, fun, extern or const, found {← found}"
    recover
    return none

/-- Declarations up to the end of the text. A token at which no declaration makes
progress is dropped. -/
def decls : Nat → Parse (List Decl)
  | 0 => failure
  | fuel + 1 => do
    if (← aborted) || (← token) = .eof then return []
    let start ← here
    let d ← decl fuel
    if (← here) = start && (← token) ≠ .eof then next
    let rest ← decls fuel
    return d.toList ++ rest

/-- The parser at the first of the lexemes. -/
def start (ls : List Lexeme) : Parser := advance { current := default, rest := ls }

/-- Enough fuel for a text of `n` lexemes. -/
def fuelFor (n : Nat) : Nat := 4 * n + 8

end Parse

/-- The outcome of parsing a text: its tree, every report in order, the number of
faults, and the first of them. -/
structure Parsed where
  file : File
  reports : List SyntaxError
  count : Nat
  first : Option SyntaxError

namespace Parsed

/-- The outcome when the declarations `decls` have been read and the parser has come
from the state `p` to `q`. -/
def ofRun (name : String) (p : Parser) (decls : List Decl) (q : Parser) : Parsed :=
  { file := ⟨name, p.current.pos, decls⟩
    reports := q.reports.reverse
    count := q.count
    first := q.first }

end Parsed

/-- Parses the text of the file `name` with a given fuel, which may run out. -/
def parse? (fuel : Nat) (name : String) (bytes : List UInt8) : Option Parsed :=
  let p := Parse.start (lexemes name bytes)
  ((Parse.decls fuel).run p).map fun (decls, q) => Parsed.ofRun name p decls q

/-- Parses the text of the file `name`. -/
def parseFile (name : String) (bytes : List UInt8) : Parsed :=
  let ls := lexemes name bytes
  (parse? (Parse.fuelFor ls.length) name bytes).getD
    (Parsed.ofRun name (Parse.start ls) [] (Parse.start ls))

end ClassLang

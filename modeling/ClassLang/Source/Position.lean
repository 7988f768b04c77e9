/-!
Places in a source text.
-/

namespace ClassLang

/-- A line and column of a named text, both counted from one. Line zero marks
the absence of a place. -/
structure Pos where
  file : String
  line : Nat
  col : Nat
  deriving DecidableEq, Repr, Inhabited

namespace Pos

/-- The absent place. -/
def none : Pos := ⟨"", 0, 0⟩

/-- The place of the first character of a text. -/
def start (file : String) : Pos := ⟨file, 1, 1⟩

/-- Whether a place lies in a text at all. -/
def isValid (p : Pos) : Bool := 0 < p.line

/-- The place that follows the character `c` at `p`. -/
def after (p : Pos) (c : Char) : Pos :=
  if c = '\n' then { p with line := p.line + 1, col := 1 }
  else { p with col := p.col + 1 }

/-- A place as text: file, line and column, without the file if it has no
name, and a dash for the absent place. -/
def text (p : Pos) : String :=
  if !p.isValid then "-"
  else if p.file.isEmpty then s!"{p.line}:{p.col}"
  else s!"{p.file}:{p.line}:{p.col}"

/-- Places are ordered by file name, then line, then column. -/
def compare (p q : Pos) : Ordering :=
  (Ord.compare p.file q.file).then
    ((Ord.compare p.line q.line).then (Ord.compare p.col q.col))

/-- Whether `p` does not come after `q`. -/
def le (p q : Pos) : Bool := (p.compare q).isLE

end Pos

end ClassLang

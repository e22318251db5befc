import PointScope.Yaml.Char

/-!
# Places in YAML text

A cursor is the text that is still to be read and the line and column where it starts, both
counted from 0. Indentation is a matter of columns, and a key has to be on one line.
-/

namespace PointScope.Yaml

/-- Line and column, counted from 0. -/
structure Mark where
  line : Nat := 0
  column : Nat := 0
deriving DecidableEq, Repr, Inhabited

/-- The place after a character. -/
def Mark.after (m : Mark) (c : Char) : Mark :=
  if isBreak c then ⟨m.line + 1, 0⟩ else ⟨m.line, m.column + 1⟩

/-- The text still to be read, and where it starts. -/
structure Cursor where
  rest : List Char
  mark : Mark := {}
deriving DecidableEq, Repr, Inhabited

namespace Cursor

/-- The cursor behind the first `n` characters, none of which is a line break. -/
def skip (c : Cursor) (n : Nat) : Cursor :=
  ⟨c.rest.drop n, { c.mark with column := c.mark.column + n }⟩

/-- Splits off the longest run of characters in a class that holds no line break. -/
def span (c : Cursor) (p : Char → Bool) : List Char × Cursor :=
  let run := c.rest.takeWhile p
  (run, c.skip run.length)

/-- The cursor behind a line break, if there is one here. -/
def skipBreak (c : Cursor) : Cursor :=
  match c.rest with
  | [] => c
  | b :: rest => if isBreak b then ⟨rest, c.mark.after b⟩ else c

/-- The cursor behind blanks and a comment. -/
def skipComment (c : Cursor) : Cursor :=
  let (_, c) := c.span isBlank
  match c.rest with
  | '#' :: _ => (c.span fun ch => !isBreak ch).2
  | _ => c

end Cursor

end PointScope.Yaml

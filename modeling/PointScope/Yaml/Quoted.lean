import PointScope.Yaml.Cursor
import PointScope.Yaml.Folding
import PointScope.Yaml.Token

/-!
# Quoted scalars

In single quotes every character stands for itself, except that the quote is written twice. In
double quotes a backslash starts an escape sequence. Line breaks are folded in both, and a
document mark may not stand at the start of a line.
-/

namespace PointScope.Yaml

/-- A quoted scalar and what is left to read behind its closing quote. -/
abbrev QuotedScalar := List Char × Cursor

/-- Reads a single-quoted scalar behind its opening quote. What was read of it before is `read`,
newest character first, and a gap. -/
def readSingleQuoted (read : List Char) (gap : Gap) (m : Mark) :
    List Char → Except Fault QuotedScalar
  | [] => .error .unclosedQuote
  | c :: cs =>
    if isBlank c || isBreak c then readSingleQuoted read (gap.add c) (m.after c) cs
    else if m.column = 0 && startsDocumentMark (c :: cs) then .error .markInQuote
    else
      let read := gap.text.reverse ++ read
      if c = '\'' then
        match cs with
        | '\'' :: rest => readSingleQuoted ('\'' :: read) .empty ((m.after c).after c) rest
        | rest => .ok (read.reverse, ⟨rest, m.after c⟩)
      else readSingleQuoted (c :: read) .empty (m.after c) cs

/-! ### Escape sequences -/

/-- The escape sequences of one letter, and the characters they stand for. -/
def simpleEscapes : List (Char × Char) :=
  [('0', '\x00'), ('a', '\x07'), ('b', '\x08'), ('t', '\t'), ('\t', '\t'), ('n', '\n'),
    ('v', '\x0b'), ('f', '\x0c'), ('r', '\r'), ('e', '\x1b'), (' ', ' '), ('"', '"'),
    ('/', '/'), ('\\', '\\'), ('N', nextLine), ('_', '\u00a0'), ('L', lineSeparator),
    ('P', paragraphSeparator)]

/-- How many hexadecimal digits follow an escape letter that names a character by its number. -/
def escapeWidth? (c : Char) : Option Nat :=
  if c = 'x' then some 2 else if c = 'u' then some 4 else if c = 'U' then some 8 else none

/-- The character of a number, if it is one. -/
def charOfNat? (n : Nat) : Option Char := if n.isValidChar then some (Char.ofNat n) else none

/-- What a double-quoted scalar is in the middle of. -/
inductive EscapeState where
  /-- Nothing special. -/
  | none
  /-- Behind a backslash. -/
  | backslash
  /-- In the number of a character: how many digits are missing, and the value so far. -/
  | digits (missing : Nat) (value : Nat)
deriving DecidableEq, Repr

/-- Reads a double-quoted scalar behind its opening quote. What was read of it before is `read`,
newest character first, and a gap. -/
def readDoubleQuoted (read : List Char) (gap : Gap) (state : EscapeState) (m : Mark) :
    List Char → Except Fault QuotedScalar
  | [] => .error .unclosedQuote
  | c :: cs =>
    match state with
    | .none =>
      if isBlank c || isBreak c then readDoubleQuoted read (gap.add c) .none (m.after c) cs
      else if m.column = 0 && startsDocumentMark (c :: cs) then .error .markInQuote
      else
        let read := gap.text.reverse ++ read
        if c = '"' then .ok (read.reverse, ⟨cs, m.after c⟩)
        else if c = '\\' then readDoubleQuoted read .empty .backslash (m.after c) cs
        else readDoubleQuoted (c :: read) .empty .none (m.after c) cs
    | .backslash =>
      if isBreak c then readDoubleQuoted read (.breaks none []) .none (m.after c) cs
      else
        match escapeWidth? c with
        | some width => readDoubleQuoted read .empty (.digits width 0) (m.after c) cs
        | none =>
          match simpleEscapes.lookup c with
          | some meant => readDoubleQuoted (meant :: read) .empty .none (m.after c) cs
          | none => .error .badEscape
    | .digits missing value =>
      match hexDigit? c with
      | none => .error .badEscape
      | some d =>
        let value := 16 * value + d
        if 1 < missing then
          readDoubleQuoted read .empty (.digits (missing - 1) value) (m.after c) cs
        else
          match charOfNat? value with
          | some meant => readDoubleQuoted (meant :: read) .empty .none (m.after c) cs
          | none => .error .badEscape

end PointScope.Yaml

import PointScope.Yaml.Cursor
import PointScope.Yaml.Folding
import PointScope.Yaml.Token

/-!
# Plain scalars

A scalar without quotes. It ends before a comment, before a colon that a blank follows, at a line
that is indented too little, and at a document mark; inside brackets also before any bracket or
comma. Line breaks inside it are folded.
-/

namespace PointScope.Yaml

/-- Whether a plain scalar starts with `c` when `cs` follows: with any character but blanks and
indicators, with a hyphen before anything but a blank, and outside brackets also with a question
mark or a colon that no blank follows. -/
def startsPlain (inFlow : Bool) (c : Char) (cs : List Char) : Bool :=
  if c = '-' then !(cs.head?.any isBlank)
  else if c = '?' || c = ':' then !inFlow && !startsBlank cs
  else !(isBlank c || isBreak c || isIndicator c)

/-- Whether the character `c`, when `cs` follows, ends a plain scalar within a line. -/
def endsPlain (inFlow : Bool) (c : Char) (cs : List Char) : Bool :=
  (c = ':' && startsBlank cs) || (inFlow && isFlowIndicator c)

/-- Whether a colon stands where it could neither end a plain scalar inside brackets nor be part
of it. -/
def isMisplacedColon (inFlow : Bool) (c : Char) (cs : List Char) : Bool :=
  inFlow && c = ':' && cs.head?.any fun next => isFlowIndicator next || next = '?'

/-- Whether a word that starts here after a gap is no longer part of a plain scalar. -/
def stopsPlain (inFlow : Bool) (indent : Int) (gap : Gap) (column : Nat) (cs : List Char) : Bool :=
  !gap.isEmpty &&
    ((gap.hasBreaks && !inFlow && (column : Int) < indent) ||
      (column = 0 && startsDocumentMark cs) || cs.head? = some '#')

/-- A plain scalar, whether line breaks follow its last word, and what is left to read. -/
structure PlainScalar where
  text : List Char
  endsLine : Bool
  cursor : Cursor

/-- Reads a plain scalar whose lines are indented by at least `indent`. What was read of it before
is `read`, newest character first, and a gap. -/
def readPlain (inFlow : Bool) (indent : Int) (read : List Char) (gap : Gap) (m : Mark) :
    List Char → Except Fault PlainScalar
  | [] => .ok ⟨read.reverse, gap.hasBreaks, ⟨[], m⟩⟩
  | c :: cs =>
    if isBlank c || isBreak c then
      if c = '\t' && gap.hasBreaks && (m.column : Int) < indent then .error .tabIndentation
      else readPlain inFlow indent read (gap.add c) (m.after c) cs
    else if stopsPlain inFlow indent gap m.column (c :: cs) then
      .ok ⟨read.reverse, gap.hasBreaks, ⟨c :: cs, m⟩⟩
    else if isMisplacedColon inFlow c cs then .error .misplacedColon
    else if endsPlain inFlow c cs then .ok ⟨read.reverse, gap.hasBreaks, ⟨c :: cs, m⟩⟩
    else readPlain inFlow indent (c :: (gap.text.reverse ++ read)) .empty (m.after c) cs

end PointScope.Yaml

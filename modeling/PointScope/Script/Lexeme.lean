import PointScope.Script.Token
import PointScope.Text.Basic

/-!
# Lexemes

A script is cut into pieces, character by character and without looking at positions: blanks,
stray characters that start no token, and lexemes. Each lexeme is the longest one possible where
it starts. The pieces, written one after another, are the script again: `firstPiece` splits off a
nonempty piece and returns exactly what follows it.
-/

namespace PointScope.Script

/-! ### Character classes -/

/-- A blank: white space that is not a line break. -/
def isBlank (c : Char) : Bool := Text.isWhiteSpace c && c != '\n' && c != '\r'

/-- A character that a name can start with. -/
def isNameStart (c : Char) : Bool := c.isAlpha || c == '_' || c == '$'

/-- A character that a name can go on with. -/
def isNamePart (c : Char) : Bool := c.isAlphanum || c == '_' || c == '$'

/-- A character of a run that starts as a number. -/
def isNumberPart (c : Char) : Bool := c.isDigit || c == '.'

/-- Whether a number starts with `c` when `cs` follows: at a digit, or at a point before one. -/
def startsNumber (c : Char) (cs : List Char) : Bool :=
  c.isDigit || (c == '.' && cs.head?.any Char.isDigit)

/-! ### Pieces -/

/-- A piece of a script. -/
inductive Piece where
  /-- A blank. -/
  | blank (c : Char)
  /-- A character that starts no token. -/
  | stray (c : Char)
  /-- The characters of one token. -/
  | lexeme (kind : TokenKind) (text : List Char)
deriving DecidableEq, Repr

/-- The characters of a piece. -/
def Piece.text : Piece → List Char
  | .blank c | .stray c => [c]
  | .lexeme _ text => text

/-- The kind of a token that consists of the single character `c` when `cs` follows. An equals
sign before another one is no assignment. -/
def punctuation? (c : Char) (cs : List Char) : Option TokenKind :=
  match c with
  | '(' => some .leftParen
  | ')' => some .rightParen
  | ',' => some .comma
  | ';' | '\n' | '\r' => some .separator
  | '=' => if cs.head? = some '=' then none else some .assign
  | _ => none

/-- The operator that a text starts with. -/
def operatorAt? (cs : List Char) : Option Operator :=
  Operator.all.find? fun op => op.symbol.toList.isPrefixOf cs

/-- The first piece of the text `c :: cs`, and the text after it. -/
def firstPiece (c : Char) (cs : List Char) : Piece × List Char :=
  if isBlank c then (.blank c, cs)
  else if startsNumber c cs then
    (.lexeme .number (c :: cs.takeWhile isNumberPart), cs.dropWhile isNumberPart)
  else if isNameStart c then
    (.lexeme .name (c :: cs.takeWhile isNamePart), cs.dropWhile isNamePart)
  else match punctuation? c cs with
    | some kind => (.lexeme kind [c], cs)
    | none => match operatorAt? (c :: cs) with
      | some op =>
        let text := op.symbol.toList
        (.lexeme (.operator op) (c :: text.tail), cs.drop text.tail.length)
      | none => (.stray c, cs)

/-- What follows the first piece is not longer than what follows the first character. -/
theorem length_firstPiece_le (c : Char) (cs : List Char) :
    (firstPiece c cs).2.length ≤ cs.length := by
  have drop_le (p : Char → Bool) : (cs.dropWhile p).length ≤ cs.length :=
    (List.dropWhile_sublist p).length_le
  unfold firstPiece
  repeat' split
  all_goals simp [drop_le]

/-- The pieces of a text, in order. -/
def pieces : List Char → List Piece
  | [] => []
  | c :: cs => (firstPiece c cs).1 :: pieces (firstPiece c cs).2
termination_by cs => cs.length
decreasing_by exact Nat.lt_succ_of_le (length_firstPiece_le c cs)

end PointScope.Script

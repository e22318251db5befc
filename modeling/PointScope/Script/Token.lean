/-!
# Tokens

What a script is made of once blanks are gone: numbers, names, operators, punctuation,
separators between statements, and the end of the script. The operator table fixes the
spelling and the binding power of every operator.
-/

namespace PointScope.Script

/-- A place in a script: line and column, both counted from 1 in characters. -/
structure Position where
  line : Nat
  column : Nat
deriving DecidableEq, Repr, Inhabited

namespace Position

/-- The first character of a script. -/
def start : Position := ⟨1, 1⟩

/-- The place after a character: only a line feed starts a new line. -/
def after (p : Position) (c : Char) : Position :=
  if c = '\n' then ⟨p.line + 1, 1⟩ else ⟨p.line, p.column + 1⟩

/-- The place after a text. -/
def advance (p : Position) (cs : List Char) : Position := cs.foldl after p

end Position

/-! ### Operators -/

/-- The operators. `not` only stands before its operand; `plus` and `minus` stand before one
operand or between two; all others stand between two. -/
inductive Operator where
  | plus | minus | times | divide | modulo | power | not
  | equal | notEqual | less | lessEqual | greater | greaterEqual
  | and | or
deriving DecidableEq, Repr

namespace Operator

/-- How an operator is written. -/
def symbol : Operator → String
  | plus => "+"
  | minus => "-"
  | times => "*"
  | divide => "/"
  | modulo => "%"
  | power => "^"
  | not => "!"
  | equal => "=="
  | notEqual => "!="
  | less => "<"
  | lessEqual => "<="
  | greater => ">"
  | greaterEqual => ">="
  | and => "&&"
  | or => "||"

/-- Every operator, those of two characters first, so that the first one whose symbol a text
starts with is the longest one. -/
def all : List Operator :=
  [equal, notEqual, lessEqual, greaterEqual, and, or, plus, minus, times, divide, modulo, power,
    not, less, greater]

/-- How tightly an operator binds its two operands; `none` if it cannot stand between two. -/
def infixPower : Operator → Option Nat
  | power => some 60
  | times | divide | modulo => some 50
  | plus | minus => some 40
  | less | lessEqual | greater | greaterEqual => some 30
  | equal | notEqual => some 20
  | and => some 15
  | or => some 10
  | not => none

/-- How tightly an operator before its operand binds: tighter than any between two. -/
def prefixPower : Nat := 70

end Operator

/-! ### Tokens -/

/-- The kinds of token. -/
inductive TokenKind where
  | number
  | name
  | operator (op : Operator)
  | assign
  | leftParen
  | rightParen
  | comma
  /-- A `;` or a line break. -/
  | separator
  | endOfScript
deriving DecidableEq, Repr

/-- A token: its kind, its text and the place of its first character. -/
structure Token where
  kind : TokenKind
  text : String
  position : Position
deriving DecidableEq, Repr

end PointScope.Script

import PointScope.Script.Token

/-!
# Diagnostics

Compiling a script never fails. Whatever had to be skipped, repaired or assumed is an `Issue`,
and a `Diagnostic` is an issue with the place where it was noticed. The wording of all issues is
in `Issue.message`.
-/

namespace PointScope.Script

/-- The two stages of compiling. -/
inductive Stage where
  | lex
  | parse
deriving DecidableEq, Repr

/-- The name of a stage in a written diagnostic. -/
def Stage.label : Stage → String
  | .lex => "Lex"
  | .parse => "Parse"

/-- What can be wrong with a script. -/
inductive Issue where
  /-- A character that starts no token; it is skipped. -/
  | strayCharacter (c : Char)
  /-- A run of digits and points that is no number; it stands for 0. -/
  | malformedNumber (text : String)
  /-- A token that can start no statement; it is skipped. -/
  | unexpectedToken (text : String)
  /-- An operand is missing; 0 is assumed. -/
  | missingOperand
  /-- An operator stands where an operand should start; it is skipped and 0 is assumed. -/
  | misplacedOperator (text : String)
  /-- A closing parenthesis is missing; it is assumed. -/
  | missingParen
  /-- A call of a function that does not exist. -/
  | unknownFunction (name : String)
  /-- `assign` with more than two arguments. -/
  | extraAssignArguments
  /-- `assign` with no argument. -/
  | assignWithoutTarget
  /-- `assign` to something that cannot hold a value. -/
  | unwritableTarget
  /-- An issue that a host reports in its own words. -/
  | reported (stage : Stage) (text : String)
deriving DecidableEq, Repr

namespace Issue

/-- The stage that notices an issue. -/
def stage : Issue → Stage
  | strayCharacter _ | malformedNumber _ => .lex
  | reported stage _ => stage
  | _ => .parse

/-- The wording of an issue. -/
def message : Issue → String
  | strayCharacter c => "skipped unexpected character '" ++ c.toString ++ "'"
  | malformedNumber text => "malformed number '" ++ text ++ "' read as 0"
  | unexpectedToken text => "unexpected '" ++ text ++ "'"
  | missingOperand => "expected expression"
  | misplacedOperator text => "operator '" ++ text ++ "' cannot start an expression"
  | missingParen => "missing ')'"
  | unknownFunction name => "unknown function '" ++ name ++ "' evaluates to 0"
  | extraAssignArguments => "assign takes two arguments; extras ignored"
  | assignWithoutTarget => "assign without a target"
  | unwritableTarget => "assign target is not writable; value is discarded"
  | reported _ text => text

/-- Whether the parser had to depart from the grammar: to skip a token, or to assume an operand
or a closing parenthesis. -/
def isRepair : Issue → Bool
  | unexpectedToken _ | missingOperand | misplacedOperator _ | missingParen => true
  | _ => false

end Issue

/-- An issue and where it was noticed. -/
structure Diagnostic where
  issue : Issue
  position : Position
deriving DecidableEq, Repr

/-- A diagnostic as a line of text: place, stage and message. -/
def Diagnostic.display (d : Diagnostic) : String :=
  "[" ++ toString d.position.line ++ ":" ++ toString d.position.column ++ "] " ++
    d.issue.stage.label ++ ": " ++ d.issue.message

end PointScope.Script

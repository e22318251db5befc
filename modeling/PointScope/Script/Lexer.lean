import PointScope.Script.Diagnostic
import PointScope.Script.Lexeme

/-!
# Reading tokens

`tokenize` walks over the pieces of a script with the position of each, turns every lexeme into
a token, and ends with one end-of-script token. Stray characters and malformed numbers become
diagnostics.
-/

namespace PointScope.Script

namespace Piece

/-- Whether a piece is a run of digits and points with more than one point. -/
def isMalformedNumber : Piece → Bool
  | .lexeme .number text => 1 < text.count '.'
  | _ => false

/-- The token that a piece at position `p` stands for. A malformed number stands for `0`. -/
def token? (p : Position) : Piece → Option Token
  | .lexeme kind text =>
    let shown := if isMalformedNumber (.lexeme kind text) then "0" else String.ofList text
    some ⟨kind, shown, p⟩
  | _ => none

/-- What is wrong with a piece. -/
def issue? : Piece → Option Issue
  | .blank _ => none
  | .stray c => some (.strayCharacter c)
  | .lexeme kind text =>
    if isMalformedNumber (.lexeme kind text) then some (.malformedNumber (String.ofList text))
    else none

end Piece

/-- The pieces with the position of each one's first character, when the first stands at `p`. -/
def place (p : Position) : List Piece → List (Position × Piece)
  | [] => []
  | piece :: rest => (p, piece) :: place (p.advance piece.text) rest

/-- The tokens of a script and what was wrong with its characters. -/
structure Lexed where
  tokens : List Token
  diagnostics : List Diagnostic
deriving DecidableEq, Repr

/-- Reads the tokens of a script. -/
def tokenize (source : String) : Lexed :=
  let cs := source.toList
  let placed := place .start (pieces cs)
  { tokens := placed.filterMap (fun (p, piece) => piece.token? p) ++
      [⟨.endOfScript, "", Position.start.advance cs⟩]
    diagnostics := placed.filterMap fun (p, piece) => piece.issue?.map (⟨·, p⟩) }

end PointScope.Script

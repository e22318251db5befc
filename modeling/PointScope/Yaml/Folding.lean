import PointScope.Yaml.Char

/-!
# Line folding

Between two words of a plain or quoted scalar there is a gap of blanks and line breaks. Blanks
alone are kept. If there are line breaks, the blanks around them are dropped; a single line feed
becomes a space, and of several breaks the first is dropped if it is a line feed.
-/

namespace PointScope.Yaml

/-- What stands between two words of a scalar. -/
inductive Gap where
  /-- Blanks only. -/
  | blanks (run : List Char)
  /-- Line breaks: the first one, unless it was escaped, and those after it. -/
  | breaks (first : Option Char) (more : List Char)
deriving DecidableEq, Repr

namespace Gap

/-- No gap. -/
def empty : Gap := .blanks []

/-- Whether there is no gap. -/
def isEmpty (g : Gap) : Bool := g = empty

/-- Whether a gap holds line breaks. -/
def hasBreaks : Gap → Bool
  | .blanks _ => false
  | .breaks _ _ => true

/-- The gap with a further blank or line break. -/
def add (g : Gap) (c : Char) : Gap :=
  match g with
  | .blanks run => if isBreak c then .breaks (some c) [] else .blanks (run ++ [c])
  | .breaks first more => if isBreak c then .breaks first (more ++ [c]) else .breaks first more

/-- What a gap stands for. -/
def text : Gap → List Char
  | .blanks run => run
  | .breaks none more => more
  | .breaks (some first) more =>
    if first = '\n' then (if more.isEmpty then [' '] else more) else first :: more

end Gap

end PointScope.Yaml

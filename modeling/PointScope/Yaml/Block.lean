import PointScope.Yaml.Cursor
import PointScope.Yaml.Token

/-!
# Block scalars

A literal or folded scalar: a header line, then the lines that are indented far enough. The header
may give the indentation relative to the surrounding one; otherwise the first line that holds more
than spaces gives it. A literal scalar keeps its line breaks, a folded one joins lines that start
with no blank. The header also says what becomes of the breaks at the end.
-/

namespace PointScope.Yaml

/-- What becomes of the line breaks at the end of a block scalar. -/
inductive Chomping where
  /-- All are dropped. -/
  | strip
  /-- The first is kept. -/
  | clip
  /-- All are kept. -/
  | keep
deriving DecidableEq, Repr

/-- The header of a block scalar, without its indicator. -/
structure BlockHeader where
  chomping : Chomping := .clip
  /-- How much deeper than its surroundings the scalar is indented, if the header says. -/
  increment : Option Nat := none
deriving DecidableEq, Repr

/-- The chomping that a character asks for. -/
def chompingOf? (c : Char) : Option Chomping :=
  if c = '+' then some .keep else if c = '-' then some .strip else none

/-- Reads the chomping indicator, if there is one here. -/
def readChomping (cs : List Char) : Option Chomping × List Char :=
  match cs with
  | [] => (none, [])
  | c :: rest => match chompingOf? c with
    | some chomping => (some chomping, rest)
    | none => (none, cs)

/-- Reads the indentation indicator, if there is one here: a digit from 1 to 9. -/
def readIncrement (cs : List Char) : Except Fault (Option Nat × List Char) :=
  match cs with
  | [] => .ok (none, [])
  | c :: rest =>
    if c = '0' then .error .badBlockHeader
    else if c.isDigit then .ok (some (c.toNat - '0'.toNat), rest)
    else .ok (none, cs)

/-- Reads the two indicators of a header, in either order. -/
def readBlockHeader (cs : List Char) : Except Fault (BlockHeader × List Char) := do
  match readChomping cs with
  | (some chomping, rest) =>
    let (increment, rest) ← readIncrement rest
    return ({ chomping, increment }, rest)
  | (none, rest) =>
    let (increment, rest) ← readIncrement rest
    if increment.isSome then
      let (chomping?, rest) := readChomping rest
      return ({ chomping := chomping?.getD .clip, increment }, rest)
    else return ({}, rest)

/-- The indentation of a block scalar whose header gives none: that of its first line with more
than spaces, or of a longer line of spaces before it. The current column and the largest one so
far are given. -/
def detectIndent (column largest : Nat) : List Char → Except Fault Nat
  | [] => .ok (max column largest)
  | c :: cs =>
    if c = ' ' then detectIndent (column + 1) largest cs
    else if c = '\t' then .error .tabIndentation
    else if isBreak c then detectIndent 0 (max column largest) cs
    else .ok (max column largest)

/-- What was read of a block scalar. -/
structure BlockState where
  /-- The text so far, newest character first. -/
  read : List Char := []
  /-- The break behind the last line that holds text. -/
  lastBreak : List Char := []
  /-- The breaks after that one. -/
  moreBreaks : List Char := []
  /-- Whether the last line that holds text starts with a blank. -/
  startedBlank : Bool := false
deriving DecidableEq, Repr

namespace BlockState

/-- Starts a line of text that begins with `c`: the breaks before it become part of the text. In a
folded scalar the break between two lines that start with no blank becomes a space, or goes if
there are further breaks. -/
def startLine (s : BlockState) (isFolded : Bool) (c : Char) : BlockState :=
  let joins := isFolded && s.lastBreak = ['\n'] && !s.startedBlank && !isBlank c
  let between :=
    if joins then (if s.moreBreaks.isEmpty then [' '] else s.moreBreaks)
    else s.lastBreak ++ s.moreBreaks
  { read := c :: (between.reverse ++ s.read), startedBlank := isBlank c }

/-- The text of a scalar that ends here. -/
def finish (s : BlockState) (chomping : Chomping) : List Char :=
  let tail := match chomping with
    | .strip => []
    | .clip => s.lastBreak
    | .keep => s.lastBreak ++ s.moreBreaks
  s.read.reverse ++ tail

end BlockState

/-- Reads the lines of a block scalar that is indented by `indent`. -/
def readBlockLines (isFolded : Bool) (chomping : Chomping) (indent : Nat) (inLine : Bool)
    (s : BlockState) (m : Mark) : List Char → Except Fault (List Char × Cursor)
  | [] => .ok (s.finish chomping, ⟨[], m⟩)
  | c :: cs =>
    if inLine then
      if isBreak c then
        readBlockLines isFolded chomping indent false { s with lastBreak := [c] } (m.after c) cs
      else
        readBlockLines isFolded chomping indent true { s with read := c :: s.read } (m.after c) cs
    else if isBreak c then
      let s := { s with moreBreaks := s.moreBreaks ++ [c] }
      readBlockLines isFolded chomping indent false s (m.after c) cs
    else if m.column < indent then
      if c = ' ' then readBlockLines isFolded chomping indent false s (m.after c) cs
      else if c = '\t' then .error .tabIndentation
      else .ok (s.finish chomping, ⟨c :: cs, m⟩)
    else readBlockLines isFolded chomping indent true (s.startLine isFolded c) (m.after c) cs

/-- Reads a block scalar behind its indicator, where the surroundings are indented by `outer`
(`-1` at the top of a document). -/
def readBlock (isFolded : Bool) (outer : Int) (c : Cursor) : Except Fault (List Char × Cursor) := do
  let (header, rest) ← readBlockHeader c.rest
  let c := (c.skip (c.rest.length - rest.length)).skipComment
  if !startsBreak c.rest then throw .badBlockHeader
  let c := c.skipBreak
  let indent ← match header.increment with
    | some n => pure ((max outer 0).toNat + n)
    | none => do
      let detected ← detectIndent 0 0 c.rest
      pure (max detected (max (outer + 1) 1).toNat)
  readBlockLines isFolded header.chomping indent false {} c.mark c.rest

end PointScope.Yaml

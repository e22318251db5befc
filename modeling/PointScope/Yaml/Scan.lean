import PointScope.Yaml.Block
import PointScope.Yaml.Plain
import PointScope.Yaml.Property
import PointScope.Yaml.Quoted

/-!
# From YAML text to tokens

Indentation and indicators are made explicit here. A block collection starts where a line is
indented deeper than before and ends where one is indented less. A key without an indicator of its
own shows only at its colon, so every token that could be such a key is remembered as a
`PendingKey`; the colon then puts a `key` token in front of it. Such a key has to be on one line
and at most 1024 characters long.
-/

namespace PointScope.Yaml

/-- A token that may turn out to be a key. -/
structure PendingKey where
  /-- Whether it must be a key: it starts a line at the indentation of a block collection. -/
  isRequired : Bool
  /-- How many tokens stand before it. -/
  number : Nat
  mark : Mark
deriving DecidableEq, Repr

/-- How far a text has been read. -/
structure Scanner where
  cursor : Cursor
  /-- The tokens so far, newest first. -/
  tokens : List Token := []
  /-- The current indentation; `-1` outside all block collections. -/
  indent : Int := -1
  /-- The indentations around the current one, innermost first. -/
  outer : List Int := []
  /-- Whether a key may start here. -/
  keyAllowed : Bool := true
  /-- The pending key on every level of brackets, innermost first. -/
  pending : List (Option PendingKey) := [none]

namespace Scanner

/-- Whether the scanner is inside brackets. -/
def inFlow (s : Scanner) : Bool := 1 < s.pending.length

/-- The current column. -/
def column (s : Scanner) : Nat := s.cursor.mark.column

/-- Adds a token. -/
def emit (s : Scanner) (t : Token) : Scanner := { s with tokens := t :: s.tokens }

/-- Puts tokens, in order, in front of all but the first `number` ones. -/
def insertAt (s : Scanner) (number : Nat) (ts : List Token) : Scanner :=
  let later := s.tokens.length - number
  { s with tokens := s.tokens.take later ++ ts.reverse ++ s.tokens.drop later }

/-! ### White space -/

/-- Skips blanks, comments and line breaks. Outside brackets a line break allows a key again, and a
tab counts as a blank only where no key may start. A byte order mark may start a line. -/
def skipSpace (inFlow keyAllowed inComment : Bool) (m : Mark) : List Char → Cursor × Bool
  | [] => (⟨[], m⟩, keyAllowed)
  | c :: cs =>
    if isBreak c then skipSpace inFlow (keyAllowed || !inFlow) false (m.after c) cs
    else if inComment then skipSpace inFlow keyAllowed true (m.after c) cs
    else if c = '#' then skipSpace inFlow keyAllowed true (m.after c) cs
    else if c = ' ' || (c = '\t' && (inFlow || !keyAllowed)) ||
        (c = byteOrderMark && m.column = 0) then
      skipSpace inFlow keyAllowed false (m.after c) cs
    else (⟨c :: cs, m⟩, keyAllowed)

/-! ### Pending keys -/

/-- Whether a pending key can no longer be one at a place: it is on an earlier line or too long. -/
def PendingKey.isStale (k : PendingKey) (m : Mark) : Bool :=
  k.mark.line < m.line || k.mark.column + 1024 < m.column

/-- Gives up the pending keys that can no longer be keys; a required one is a fault. -/
def dropStale (s : Scanner) : Except Fault Scanner :=
  let isStale (k : PendingKey) : Bool := PendingKey.isStale k s.cursor.mark
  if s.pending.any fun k => k.any fun k => k.isRequired && isStale k then .error .unfinishedKey
  else .ok { s with pending := s.pending.map fun k => k.filter fun k => !isStale k }

/-- Gives up the pending key on the innermost level; a required one is a fault. -/
def dropKey (s : Scanner) : Except Fault Scanner :=
  match s.pending with
  | some k :: outer =>
    if k.isRequired then .error .unfinishedKey else .ok { s with pending := none :: outer }
  | _ => .ok s

/-- Remembers that a key may start here, if it may. -/
def saveKey (s : Scanner) : Except Fault Scanner := do
  if s.keyAllowed then
    let isRequired := !s.inFlow && s.indent = s.column
    let s ← s.dropKey
    return { s with pending := some ⟨isRequired, s.tokens.length, s.cursor.mark⟩ :: s.pending.tail }
  else return s

/-! ### Indentation -/

/-- Starts a block collection at a column if that is deeper than the current indentation. Its
first token goes in front of all but the first `number` tokens. -/
def roll (s : Scanner) (column : Nat) (number : Nat) (start : Token) : Scanner :=
  if s.inFlow || (column : Int) ≤ s.indent then s
  else { s.insertAt number [start] with indent := column, outer := s.indent :: s.outer }

/-- The block ends, and the indentations that remain, when block collections deeper than a column
end. -/
def unrolled (column indent : Int) (tokens : List Token) :
    List Int → List Token × Int × List Int
  | [] => if column < indent then (.blockEnd :: tokens, -1, []) else (tokens, indent, [])
  | next :: outer =>
    if column < indent then unrolled column next (.blockEnd :: tokens) outer
    else (tokens, indent, next :: outer)

/-- Ends the block collections that are deeper than a column. -/
def unroll (s : Scanner) (column : Int) : Scanner :=
  if s.inFlow then s
  else
    let (tokens, indent, outer) := unrolled column s.indent s.tokens s.outer
    { s with tokens, indent, outer }

/-! ### Tokens -/

/-- Adds the tokens that a token brings, at the end of which the cursor stands at `c`. -/
def found (s : Scanner) (t : Token) (c : Cursor) : Scanner := { s.emit t with cursor := c }

/-- Reads a mark that begins or ends a document. -/
def documentMark (s : Scanner) (t : Token) : Except Fault Scanner := do
  let s ← (s.unroll (-1)).dropKey
  return { s.found t (s.cursor.skip 3) with keyAllowed := false }

/-- Reads a directive. -/
def directive (s : Scanner) : Except Fault Scanner := do
  let s ← (s.unroll (-1)).dropKey
  let (t, c) ← readDirective s.cursor
  return { s.found t c with keyAllowed := false }

/-- Reads an opening bracket. -/
def openFlow (s : Scanner) (t : Token) : Except Fault Scanner := do
  let s ← s.saveKey
  return { s.found t (s.cursor.skip 1) with pending := none :: s.pending, keyAllowed := true }

/-- Reads a closing bracket. -/
def closeFlow (s : Scanner) (t : Token) : Except Fault Scanner := do
  let s ← s.dropKey
  let pending := if s.inFlow then s.pending.tail else s.pending
  return { s.found t (s.cursor.skip 1) with pending, keyAllowed := false }

/-- Reads a comma. -/
def flowEntry (s : Scanner) : Except Fault Scanner := do
  let s ← s.dropKey
  return { s.found .flowEntry (s.cursor.skip 1) with keyAllowed := true }

/-- Reads the hyphen of an entry. -/
def blockEntry (s : Scanner) : Except Fault Scanner := do
  if !s.inFlow && !s.keyAllowed then throw .misplacedIndicator
  let s ← (s.roll s.column s.tokens.length .blockSequenceStart).dropKey
  return { s.found .blockEntry (s.cursor.skip 1) with keyAllowed := true }

/-- Reads the question mark of a key. -/
def explicitKey (s : Scanner) : Except Fault Scanner := do
  if !s.inFlow && !s.keyAllowed then throw .misplacedIndicator
  let s ← (s.roll s.column s.tokens.length .blockMappingStart).dropKey
  return { s.found .key (s.cursor.skip 1) with keyAllowed := !s.inFlow }

/-- Reads the colon in front of a value. If there is a pending key, this colon makes it one. -/
def value (s : Scanner) : Except Fault Scanner := do
  match s.pending with
  | some k :: outer =>
    let s := (s.insertAt k.number [.key]).roll k.mark.column k.number .blockMappingStart
    return { s.found .value (s.cursor.skip 1) with pending := none :: outer, keyAllowed := false }
  | _ =>
    if !s.inFlow && !s.keyAllowed then throw .misplacedIndicator
    let s := s.roll s.column s.tokens.length .blockMappingStart
    return { s.found .value (s.cursor.skip 1) with keyAllowed := !s.inFlow }

/-- Reads a token that a key can start with. -/
def keyStart (s : Scanner) (read : Cursor → Except Fault Found) : Except Fault Scanner := do
  let s ← s.saveKey
  let (t, c) ← read s.cursor
  return { s.found t c with keyAllowed := false }

/-- Reads a quoted scalar. -/
def quoted (s : Scanner) (style : Style) : Except Fault Scanner :=
  s.keyStart fun c => do
    let c := c.skip 1
    let (text, c) ←
      if style = .singleQuoted then readSingleQuoted [] .empty c.mark c.rest
      else readDoubleQuoted [] .empty .none c.mark c.rest
    return (.scalar style (String.ofList text), c)

/-- Reads a plain scalar. -/
def plain (s : Scanner) : Except Fault Scanner := do
  let s ← s.saveKey
  let scalar ← readPlain s.inFlow (s.indent + 1) [] .empty s.cursor.mark s.cursor.rest
  return { s.found (.scalar .plain (String.ofList scalar.text)) scalar.cursor with
    keyAllowed := scalar.endsLine }

/-- Reads a block scalar. -/
def block (s : Scanner) (style : Style) : Except Fault Scanner := do
  let s ← s.dropKey
  let (text, c) ← readBlock (style = .folded) s.indent (s.cursor.skip 1)
  return { s.found (.scalar style (String.ofList text)) c with keyAllowed := true }

/-- Reads the token that starts with `c` when `cs` follows. -/
def dispatch (s : Scanner) (c : Char) (cs : List Char) : Except Fault Scanner :=
  let atMargin := s.column = 0
  let followed := startsBlank cs
  if atMargin && c = '%' then s.directive
  else if atMargin && startsMarker '-' (c :: cs) then s.documentMark .documentStart
  else if atMargin && startsMarker '.' (c :: cs) then s.documentMark .documentEnd
  else if c = '[' then s.openFlow .flowSequenceStart
  else if c = '\x7b' then s.openFlow .flowMappingStart
  else if c = ']' then s.closeFlow .flowSequenceEnd
  else if c = '\x7d' then s.closeFlow .flowMappingEnd
  else if c = ',' then s.flowEntry
  else if c = '-' && followed then s.blockEntry
  else if c = '?' && (s.inFlow || followed) then s.explicitKey
  else if c = ':' && (s.inFlow || followed) then s.value
  else if c = '*' then s.keyStart (readAnchor .alias)
  else if c = '&' then s.keyStart (readAnchor .anchor)
  else if c = '!' then s.keyStart (readTag s.inFlow)
  else if c = '|' && !s.inFlow then s.block .literal
  else if c = '>' && !s.inFlow then s.block .folded
  else if c = '\'' then s.quoted .singleQuoted
  else if c = '"' then s.quoted .doubleQuoted
  else if startsPlain s.inFlow c cs then s.plain
  else .error (.strayCharacter c)

/-- Ends the text: whatever is open by indentation ends, and no key may be waiting. -/
def finish (s : Scanner) : Except Fault (List Token) := do
  let s ← (s.unroll (-1)).dropKey
  return s.tokens.reverse

/-- Reads tokens until the text is over. Each token takes at least one character, so `fuel` of
one more than there are characters is enough. -/
def run : Nat → Scanner → Except Fault (List Token)
  | 0, _ => .error .unexpectedToken
  | fuel + 1, s => do
    let (cursor, keyAllowed) := skipSpace s.inFlow s.keyAllowed false s.cursor.mark s.cursor.rest
    let s ← { s with cursor, keyAllowed }.dropStale
    match s.cursor.rest with
    | [] => s.finish
    | c :: cs =>
      let s ← (s.unroll s.column).dispatch c cs
      run fuel s

end Scanner

/-- The tokens of YAML text. -/
def tokens (text : String) : Except Fault (List Token) :=
  let cs := text.toList
  match cs.find? fun c => !isAllowed c with
  | some c => .error (.forbiddenCharacter c)
  | none =>
    let cs := normalizeBreaks cs
    Scanner.run (cs.length + 1) { cursor := ⟨cs, {}⟩ }

end PointScope.Yaml

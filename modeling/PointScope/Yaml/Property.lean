import PointScope.Numeric.Decimal
import PointScope.Yaml.Cursor
import PointScope.Yaml.Token

/-!
# Anchors, tags and directives

The readers of the tokens that stand in front of nodes and documents. Each takes the cursor at
the first character of its token and gives back the cursor behind it.
-/

namespace PointScope.Yaml

/-- A token and the cursor behind it. -/
abbrev Found := Token × Cursor

/-! ### Anchors and aliases -/

/-- Whether a text may follow the name of an anchor. -/
def endsAnchor (cs : List Char) : Bool :=
  startsBlank cs || cs.head?.any "?:,]\x7d%@\x60".toList.contains

/-- Reads an anchor or alias; `make` tells which. -/
def readAnchor (make : String → Token) (c : Cursor) : Except Fault Found :=
  let (name, c) := (c.skip 1).span isWord
  if name.isEmpty || !endsAnchor c.rest then .error .badAnchor
  else .ok (make (String.ofList name), c)

/-! ### Tags -/

/-- A character of a tag, besides letters, digits and percent escapes. -/
def isTagMark (c : Char) : Bool := ";/?:@&=+$.!~*'()".toList.contains c

/-- How many bytes a character takes whose first byte is `n`. -/
def widthOfLead? (n : Nat) : Option Nat :=
  if n < 0x80 then some 1 else if n < 0xC0 then none else if n < 0xE0 then some 2
  else if n < 0xF0 then some 3 else if n < 0xF8 then some 4 else none

/-- Reads the characters of a tag; inside angle brackets it may hold commas and square brackets
(`isVerbatim`). A percent sign and two hexadecimal digits stand for a byte, and the bytes of a
character stand together: `missing` of them are still to come. -/
def readTagText (isVerbatim : Bool) (missing : Nat) (read : List Char) :
    List Char → Except Fault (List Char × List Char)
  | '%' :: hi :: lo :: cs =>
    match hexDigit? hi, hexDigit? lo with
    | some hi, some lo =>
      let byte := 16 * hi + lo
      if missing = 0 then
        match widthOfLead? byte with
        | some width => readTagText isVerbatim (width - 1) (Char.ofNat byte :: read) cs
        | none => .error .badTag
      else if 0x80 ≤ byte && byte < 0xC0 then
        readTagText isVerbatim (missing - 1) (Char.ofNat byte :: read) cs
      else .error .badTag
    | _, _ => .error .badTag
  | c :: cs =>
    if c = '%' || missing ≠ 0 then .error .badTag
    else if isWord c || isTagMark c || (isVerbatim && ",[]".toList.contains c) then
      readTagText isVerbatim 0 (c :: read) cs
    else .ok (read.reverse, c :: cs)
  | [] => if missing = 0 then .ok (read.reverse, []) else .error .badTag

/-- Reads the characters of a tag at a cursor. -/
def readTagAt (isVerbatim : Bool) (c : Cursor) : Except Fault (List Char × Cursor) := do
  let (text, rest) ← readTagText isVerbatim 0 [] c.rest
  return (text, c.skip (c.rest.length - rest.length))

/-- Reads a tag handle: an exclamation mark, a word, and another exclamation mark if there is
one. -/
def readHandle (c : Cursor) : List Char × Cursor :=
  let (word, c) := (c.skip 1).span isWord
  match c.rest with
  | '!' :: _ => ('!' :: (word ++ ['!']), c.skip 1)
  | _ => ('!' :: word, c)

/-- Whether a handle is written between two exclamation marks. -/
def isNamedHandle (handle : List Char) : Bool := 1 < handle.length && handle.getLast? = some '!'

/-- Reads a tag behind which a blank, a line break or the end must follow, or a comma inside
brackets. The handle of a tag in angle brackets is empty, and so is that of the lone `!`. -/
def readTag (inFlow : Bool) (c : Cursor) : Except Fault Found := do
  let (handle, suffix, c) ← match c.rest with
    | '!' :: '<' :: _ => do
      let (suffix, c) ← readTagAt true (c.skip 2)
      if suffix.isEmpty || c.rest.head? ≠ some '>' then throw .badTag
      pure ([], suffix, c.skip 1)
    | _ => do
      let (handle, c) := readHandle c
      let (text, c) ← readTagAt false c
      if isNamedHandle handle then
        if text.isEmpty then throw .badTag
        pure (handle, text, c)
      else
        let suffix := handle.tail ++ text
        pure (if suffix.isEmpty then ([], ['!'], c) else (['!'], suffix, c))
  if startsBlank c.rest || (inFlow && c.rest.head? = some ',') then
    return (.tag (String.ofList handle) (String.ofList suffix), c)
  else throw .badTag

/-! ### Directives -/

/-- Reads a number of at most nine digits. -/
def readVersionNumber (c : Cursor) : Except Fault (Nat × Cursor) :=
  let (digits, c) := c.span Char.isDigit
  if digits.isEmpty || 9 < digits.length then .error .badDirective
  else .ok (Decimal.valueOfDigits digits, c)

/-- Reads the version that a `YAML` directive states. -/
def readVersion (c : Cursor) : Except Fault Found := do
  let (_, c) := c.span isBlank
  let (major, c) ← readVersionNumber c
  if c.rest.head? ≠ some '.' then throw .badDirective
  let (minor, c) ← readVersionNumber (c.skip 1)
  return (.versionDirective major minor, c)

/-- Reads the handle that a `TAG` directive declares and what it stands for. -/
def readTagDeclaration (c : Cursor) : Except Fault Found := do
  let (_, c) := c.span isBlank
  if c.rest.head? ≠ some '!' then throw .badDirective
  let (handle, c) := readHandle c
  if !(handle = ['!'] || isNamedHandle handle) then throw .badDirective
  if !c.rest.head?.any isBlank then throw .badDirective
  let (_, c) := c.span isBlank
  let (expansion, c) ← readTagAt true c
  if expansion.isEmpty || !startsBlank c.rest then throw .badDirective
  return (.tagDirective (String.ofList handle) (String.ofList expansion), c)

/-- Reads a directive, a comment behind it, and the end of its line. -/
def readDirective (c : Cursor) : Except Fault Found := do
  let (name, c) := (c.skip 1).span isWord
  if name.isEmpty || !startsBlank c.rest then throw .badDirective
  let (token, c) ←
    if name = "YAML".toList then readVersion c
    else if name = "TAG".toList then readTagDeclaration c
    else throw .badDirective
  let c := c.skipComment
  if !startsBreak c.rest then throw .badDirective
  return (token, c.skipBreak)

end PointScope.Yaml

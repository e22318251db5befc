/-!
# Characters of YAML text

The classes of characters that the rules for YAML text refer to, and the normal form of line
breaks. A text is read in normal form: carriage return, carriage return with line feed, and next
line are all line feeds; the line and paragraph separators are breaks of their own kind.
-/

namespace PointScope.Yaml

/-- The line separator, U+2028. -/
def lineSeparator : Char := '\u2028'

/-- The paragraph separator, U+2029. -/
def paragraphSeparator : Char := '\u2029'

/-- The next-line control, U+0085. -/
def nextLine : Char := '\u0085'

/-- The byte order mark, U+FEFF. -/
def byteOrderMark : Char := '\ufeff'

/-- Whether a text may hold a character at all: tabs, line breaks, and what is neither a control
nor a surrogate nor one of the last two characters of the basic plane. -/
def isAllowed (c : Char) : Bool :=
  let n := c.toNat
  n = 0x9 || n = 0xA || n = 0xD || (0x20 ≤ n && n ≤ 0x7E) || n = 0x85 ||
    (0xA0 ≤ n && n ≤ 0xD7FF) || (0xE000 ≤ n && n ≤ 0xFFFD) || 0x10000 ≤ n

/-- A line break in normal form. -/
def isBreak (c : Char) : Bool := c = '\n' || c = lineSeparator || c = paragraphSeparator

/-- A blank within a line: space or tab. -/
def isBlank (c : Char) : Bool := c = ' ' || c = '\t'

/-- Whether a text is over or starts with a blank or a line break. -/
def startsBlank : List Char → Bool
  | [] => true
  | c :: _ => isBlank c || isBreak c

/-- Whether a line is over: at the end of the text, or at a line break. -/
def startsBreak : List Char → Bool
  | [] => true
  | c :: _ => isBreak c

/-- A character of the names of anchors and directives. -/
def isWord (c : Char) : Bool := c.isAlphanum || c = '_' || c = '-'

/-- The value of a hexadecimal digit. -/
def hexDigit? (c : Char) : Option Nat :=
  if c.isDigit then some (c.toNat - '0'.toNat)
  else if 'a' ≤ c && c ≤ 'f' then some (c.toNat - 'a'.toNat + 10)
  else if 'A' ≤ c && c ≤ 'F' then some (c.toNat - 'A'.toNat + 10)
  else none

/-- A character that opens, closes or divides a collection in brackets. -/
def isFlowIndicator (c : Char) : Bool :=
  c = ',' || c = '[' || c = ']' || c = '\x7b' || c = '\x7d'

/-- A character that no plain scalar starts with, whatever follows it. -/
def isIndicator (c : Char) : Bool :=
  isFlowIndicator c || "#&*!|>%@'\"\x60".toList.contains c

/-- Whether a text starts with three times `c` and a blank, a line break or the end. -/
def startsMarker (c : Char) (cs : List Char) : Bool :=
  cs.take 3 = [c, c, c] && startsBlank (cs.drop 3)

/-- Whether a text starts with a mark that begins or ends a document. -/
def startsDocumentMark (cs : List Char) : Bool := startsMarker '-' cs || startsMarker '.' cs

/-- Brings the line breaks of a text into normal form. -/
def normalizeBreaks : List Char → List Char
  | [] => []
  | '\r' :: '\n' :: cs => '\n' :: normalizeBreaks cs
  | c :: cs => (if c = '\r' || c = nextLine then '\n' else c) :: normalizeBreaks cs

end PointScope.Yaml

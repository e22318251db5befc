import PointScope.Yaml.Char
import PointScope.Yaml.Number
import PointScope.Yaml.Quoted
import PointScope.Yaml.Token

/-!
# Writing scalars

Every text can be written as the value of a key so that it reads back. `writtenStyle` chooses how:
a text of several lines is a literal scalar, any other a plain one; where that would be read
differently, single quotes are tried next, and double quotes, which can write anything, come last.
-/

namespace PointScope.Yaml

/-! ### What a style can hold -/

/-- A character that can stand for itself outside double quotes. -/
def isPrintable (c : Char) : Bool :=
  let n := c.toNat
  n = 0xA || (0x20 ≤ n && n ≤ 0x7E) || (0xA0 ≤ n && n ≤ 0xD7FF) ||
    (0xE000 ≤ n && n ≤ 0xFFFD && n ≠ 0xFEFF) || 0x10000 ≤ n

/-- Whether somewhere in a text a character in `p` is followed by one in `q`. -/
def hasPair (p q : Char → Bool) : List Char → Bool
  | c :: d :: cs => (p c && q d) || hasPair p q (d :: cs)
  | _ => false

/-- Whether a character is a space. -/
def isSpace (c : Char) : Bool := c = ' '

/-- Whether a text starts in a way that a plain scalar cannot start: with an indicator, with a
hyphen, question mark or colon before a blank, or like a document mark. -/
def startsIndicator (cs : List Char) : Bool :=
  match cs with
  | [] => false
  | c :: rest =>
    isIndicator c || ("-?:".toList.contains c && startsBlank rest) ||
      cs.take 3 = "---".toList || cs.take 3 = "...".toList

/-- Whether a text holds the start of a value or a comment: a colon before a blank or the end, or
a number sign behind a blank. -/
def hasIndicator (cs : List Char) : Bool :=
  hasPair (· = ':') (fun c => isBlank c || isBreak c) cs || cs.getLast? = some ':' ||
    hasPair (fun c => isBlank c || isBreak c) (· = '#') cs

/-- Whether a nonempty text can be a plain scalar. -/
def allowsPlain (cs : List Char) : Bool :=
  cs.all isPrintable && !cs.any isBreak && !cs.head?.any isSpace && !cs.getLast?.any isSpace &&
    !startsIndicator cs && !hasIndicator cs

/-- Whether a text can be written in single quotes: spaces beside line breaks would be lost. -/
def allowsSingleQuoted (cs : List Char) : Bool :=
  cs.all isPrintable && !hasPair isSpace isBreak cs && !hasPair isBreak isSpace cs

/-- Whether a text can be a literal scalar: no line of it may end with a space. -/
def allowsLiteral (cs : List Char) : Bool :=
  cs.all isPrintable && !hasPair isSpace isBreak cs && !cs.getLast?.any isSpace

/-- The style that a text is written in. -/
def writtenStyle (cs : List Char) : Style :=
  if cs.contains '\n' then
    if allowsLiteral cs then .literal else .doubleQuoted
  else if !isAmbiguous cs && allowsPlain cs then .plain
  else if allowsSingleQuoted cs then .singleQuoted
  else .doubleQuoted

/-! ### The styles -/

/-- The columns by which the lines of a value are indented. -/
def indentation : List Char := [' ', ' ']

/-- The inside of single quotes. A quote is written twice, and so is a line feed that no line
break precedes; the text after line breaks is indented. -/
def singleQuotedBody (afterBreak : Bool) : List Char → List Char
  | [] => if afterBreak then indentation else []
  | c :: cs =>
    if isBreak c then
      (if c = '\n' && !afterBreak then [c, c] else [c]) ++ singleQuotedBody true cs
    else if c = ' ' then c :: singleQuotedBody afterBreak cs
    else
      (if afterBreak then indentation else []) ++ (if c = '\'' then [c, c] else [c]) ++
        singleQuotedBody false cs

/-- A hexadecimal digit. -/
def hexDigit (n : Nat) : Char :=
  if n < 10 then Char.ofNat ('0'.toNat + n) else Char.ofNat ('A'.toNat + (n - 10))

/-- A number in hexadecimal with a given count of digits. -/
def hexDigits : Nat → Nat → List Char
  | 0, _ => []
  | count + 1, n => hexDigits count (n / 16) ++ [hexDigit (n % 16)]

/-- The escape letters that double quotes are written with, by the character they stand for. -/
def writtenEscapes : List (Char × Char) :=
  [('\x00', '0'), ('\x07', 'a'), ('\x08', 'b'), ('\t', 't'), ('\n', 'n'), ('\x0b', 'v'),
    ('\x0c', 'f'), ('\r', 'r'), ('\x1b', 'e'), ('"', '"'), ('\\', '\\'), (nextLine, 'N'),
    (lineSeparator, 'L'), (paragraphSeparator, 'P')]

/-- The escape sequence of a character. -/
def escaped (c : Char) : List Char :=
  match writtenEscapes.lookup c with
  | some letter => ['\\', letter]
  | none =>
    let n := c.toNat
    if n ≤ 0xFF then '\\' :: 'x' :: hexDigits 2 n
    else if n ≤ 0xFFFF then '\\' :: 'u' :: hexDigits 4 n
    else '\\' :: 'U' :: hexDigits 8 n

/-- A character inside double quotes. -/
def doubleQuotedChar (c : Char) : List Char :=
  if !isPrintable c || isBreak c || c = '"' || c = '\\' then escaped c else [c]

/-- The header of a literal scalar. The indentation is stated when the text starts with a space or
a line break, which would hide it; the chomping says that no line break ends the text, or that
nothing but line breaks does. -/
def literalHeader (cs : List Char) : List Char :=
  let hint := if cs.head?.any fun c => c = ' ' || isBreak c then ['2'] else []
  let chomping := match cs.reverse with
    | [] => ['-']
    | [last] => if isBreak last then ['+'] else ['-']
    | last :: before :: _ =>
      if !isBreak last then ['-'] else if isBreak before then ['+'] else []
  '|' :: (hint ++ chomping)

/-- The lines of a literal scalar: every line that is not empty is indented. -/
def literalLines (atStart : Bool) : List Char → List Char
  | [] => []
  | c :: cs =>
    if isBreak c then c :: literalLines true cs
    else (if atStart then indentation else []) ++ c :: literalLines false cs

/-- The value of a key, up to and including the end of its last line. -/
def writtenValue (cs : List Char) : List Char :=
  match writtenStyle cs with
  | .singleQuoted => '\'' :: (singleQuotedBody false cs ++ ['\'', '\n'])
  | .doubleQuoted => '"' :: (cs.flatMap doubleQuotedChar ++ ['"', '\n'])
  | .literal =>
    literalHeader cs ++ '\n' :: (literalLines true cs ++
      if cs.getLast?.any isBreak then [] else ['\n'])
  | _ => cs ++ ['\n']

/-- A key and its value. -/
def writtenEntry (key text : String) : List Char :=
  key.toList ++ ':' :: ' ' :: writtenValue text.toList

end PointScope.Yaml

/-!
# Decimal numerals

A decimal numeral is a whole number of units of a power of ten. This module reads the
numerals that scripts, settings and options are written in, and turns a numeral into the
double nearest to it (ties to the even significand).

The grammar of `readDouble?`: an optional sign; then `inf`, `infinity` or `nan` in any letter
case, or digits with at most one point among or around them (at least one digit in all),
followed optionally by `e` or `E`, an optional sign and at least one digit. Nothing else is a
number: no blanks, no digit separators, no other base.
-/

namespace PointScope

/-- The number `digits · 10^exponent`. -/
structure Decimal where
  digits : Nat
  exponent : Int
deriving DecidableEq, Repr

namespace Decimal

/-- The double nearest to a decimal; beyond the largest double it is infinite. -/
def toFloat (d : Decimal) : Float :=
  Float.ofScientific d.digits (d.exponent < 0) d.exponent.natAbs

/-- The number that a run of digits stands for. -/
def valueOfDigits (cs : List Char) : Nat :=
  cs.foldl (fun n c => 10 * n + (c.toNat - '0'.toNat)) 0

/-- The number that a nonempty run of digits stands for; nothing else is read. -/
def readNat? (cs : List Char) : Option Nat :=
  if !cs.isEmpty && cs.all Char.isDigit then some (valueOfDigits cs) else none

/-- A sign, if the text starts with one (`true` for minus), and what follows it. -/
def splitSign : List Char → Bool × List Char
  | '-' :: cs => (true, cs)
  | '+' :: cs => (false, cs)
  | cs => (false, cs)

/-- A text without the plus sign in front of it. -/
def dropPlus : List Char → List Char
  | '+' :: cs => cs
  | cs => cs

/-- The exponent part of a numeral: empty, or `e` or `E` with an optional sign and digits. -/
def readExponent? : List Char → Option Int
  | [] => some 0
  | c :: cs =>
    if c = 'e' || c = 'E' then
      let (negative, ds) := splitSign cs
      (readNat? ds).map fun n => if negative then -(n : Int) else n
    else none

/-- Digits before and after an optional point, and what follows them. -/
def splitPoint (cs : List Char) : List Char × List Char × List Char :=
  let whole := cs.takeWhile Char.isDigit
  match cs.dropWhile Char.isDigit with
  | '.' :: rest => (whole, rest.takeWhile Char.isDigit, rest.dropWhile Char.isDigit)
  | rest => (whole, [], rest)

/-- Reads an unsigned numeral with an optional point and exponent. -/
def read? (cs : List Char) : Option Decimal :=
  let (whole, fraction, rest) := splitPoint cs
  if whole.isEmpty && fraction.isEmpty then none
  else
    (readExponent? rest).map fun e =>
      ⟨valueOfDigits (whole ++ fraction), e - fraction.length⟩

end Decimal

/-- The value of a word for a number that digits cannot write, in any letter case. -/
def readUnbounded? (cs : List Char) : Option Float :=
  let word := cs.map Char.toLower
  if word = "inf".toList || word = "infinity".toList then some (1.0 / 0.0)
  else if word = "nan".toList then some (0.0 / 0.0)
  else none

/-- Reads the text of a double, as the module's introduction describes. -/
def readDouble? (text : String) : Option Float :=
  let (negative, cs) := Decimal.splitSign text.toList
  let magnitude? := (readUnbounded? cs).orElse fun _ => (Decimal.read? cs).map Decimal.toFloat
  magnitude?.map fun x => if negative then -x else x

end PointScope

import PointScope.Numeric.Decimal
import PointScope.Yaml.Char

/-!
# Numbers and words in plain scalars

A plain scalar may be more than a text: nothing at all, a truth value, a whole number in one of
four bases, or a decimal number. This module says which texts are what. A whole number has no
zero in front that it does not need; a text that has one is no number.
-/

namespace PointScope.Yaml

/-- The number that a nonempty text of digits of a base stands for. -/
def readDigits? (base : Nat) (cs : List Char) : Option Nat := do
  if cs.isEmpty then failure
  let digits ← cs.mapM hexDigit?
  if digits.all (· < base) then return digits.foldl (fun n d => base * n + d) 0 else failure

/-- The base that a text announces, and its digits. -/
def splitBase : List Char → Option (Nat × List Char)
  | '0' :: 'x' :: cs => some (16, cs)
  | '0' :: 'o' :: cs => some (8, cs)
  | '0' :: 'b' :: cs => some (2, cs)
  | _ => none

/-- Whether a text, but for a sign, consists of digits with a zero in front that is not needed. -/
def hasIdleZero (cs : List Char) : Bool :=
  match (Decimal.splitSign cs).2 with
  | '0' :: c :: rest => (c :: rest).all Char.isDigit
  | _ => false

/-- The whole number from `0` that a text stands for, if it lies below `bound`. -/
def readNatural? (bound : Nat) (cs : List Char) : Option Nat :=
  let unsigned := Decimal.dropPlus cs
  let inBase := (splitBase unsigned).bind fun (base, ds) => readDigits? base ds
  let value := inBase.orElse fun _ =>
    if hasIdleZero cs then none else readDigits? 10 unsigned
  value.filter (· < bound)

/-- Whether a text is a whole number of at most 128 bits in a base that it announces. -/
def isBasedNumber (cs : List Char) : Bool :=
  match cs with
  | '-' :: unsigned =>
    ((splitBase unsigned).bind fun (base, ds) => readDigits? base ds).any (· ≤ 1 <<< 127)
  | cs =>
    ((splitBase (Decimal.dropPlus cs)).bind fun (base, ds) => readDigits? base ds).any
      (· < 1 <<< 128)

/-- The words for numbers that digits cannot write. -/
def unboundedWords : List String :=
  [".inf", ".Inf", ".INF", "+.inf", "+.Inf", "+.INF", "-.inf", "-.Inf", "-.INF",
    ".nan", ".NaN", ".NAN"]

/-- Whether a text is a decimal number that a double can hold. -/
def isDecimalNumber (cs : List Char) : Bool :=
  (Decimal.read? (Decimal.splitSign cs).2).any fun d => d.toFloat.isFinite

/-- The words for nothing and for truth values. -/
def reservedWords : List String :=
  ["", "null", "Null", "NULL", "~", "true", "True", "TRUE", "false", "False", "FALSE"]

/-- Whether a plain scalar with this text would not be read as a text, or looks like a number
with an idle zero. -/
def isAmbiguous (cs : List Char) : Bool :=
  reservedWords.contains (String.ofList cs) || isBasedNumber cs || hasIdleZero cs ||
    unboundedWords.contains (String.ofList cs) || isDecimalNumber cs

end PointScope.Yaml

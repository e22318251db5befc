import PointScope.Numeric.Binary64
import PointScope.Numeric.Shortest

/-!
# Writing numbers

Two notations for a double. `NumberText.shortest` writes the fewest digits that read back, always
positionally: no exponent, and no point in a whole number. `NumberText.fixed` writes a given number
of places after the point, rounding the exact binary value with halves to even. What is not finite
is a word in both.
-/

namespace PointScope.NumberText

/-- The decimal digits of a whole number. -/
def digits (n : Nat) : List Char := Nat.toDigits 10 n

/-- Zeros, `n` of them. -/
def zeros (n : Nat) : List Char := List.replicate n '0'

/-- A minus sign for negative numbers, and nothing for others. -/
def sign (negative : Bool) : List Char := if negative then ['-'] else []

/-- The digits `ds`, of which the last `places` stand after the point. -/
def withPoint (ds : List Char) (places : Nat) : List Char :=
  if places = 0 then ds
  else
    let padded := zeros (places + 1 - ds.length) ++ ds
    let whole := padded.length - places
    padded.take whole ++ '.' :: padded.drop whole

/-- A decimal without exponent notation. -/
def positional (d : Decimal) : List Char :=
  if 0 ≤ d.exponent then digits d.digits ++ zeros d.exponent.toNat
  else withPoint (digits d.digits) (-d.exponent).toNat

/-- The word for an infinity. -/
def infinite (negative : Bool) : List Char := sign negative ++ "inf".toList

/-- The word for what is not a number. -/
def notANumber : List Char := "NaN".toList

/-- The fewest digits that read back, positionally: `0.1`, `14`, `-0`, `0.0000001`. -/
def shortest (x : Float) : String :=
  String.ofList <| match Binary64.parts x with
    | .nan => notANumber
    | .infinite negative => infinite negative
    | .finite negative m e =>
      sign negative ++ if m = 0 then ['0'] else positional (Shortest.decimal m e)

/-- The exact value rounded to `places` places after the point. -/
def fixed (places : Nat) (x : Float) : String :=
  String.ofList <| match Binary64.parts x with
    | .nan => notANumber
    | .infinite negative => infinite negative
    | .finite negative m e =>
      let (n, d) := inUnits m e (-(places : Int))
      sign negative ++ withPoint (digits (divNearestEven n d)) places

end PointScope.NumberText

/-!
# Doubles as exact numbers

A finite double is a whole number times a power of two, and every conversion in this
library goes through that pair instead of through approximate operations: whole parts,
rounding to a whole number, saturating conversion to counts and to memory addresses, and
the remainder of a division are computed on integers. Nothing here rounds except where the
doc comment says how.
-/

namespace PointScope.Binary64

open Float.Model

/-! ### Decoding -/

/-- What a double stands for: not a number, an infinity, or `±significand · 2^exponent`. -/
inductive Parts where
  | nan
  | infinite (negative : Bool)
  | finite (negative : Bool) (significand : Nat) (exponent : Int)
deriving DecidableEq, Repr

/-- The parts of a double. Zero has significand `0`; the sign of zero is kept. -/
def parts (x : Float) : Parts :=
  match x.toModel.unpack with
  | .notANumber => .nan
  | .infinity s => .infinite (s == .negative)
  | .zero s => .finite (s == .negative) 0 0
  | .finite s m e _ => .finite (s == .negative) m e

/-- Whether the sign bit of a double is set. A value that is not a number counts as unsigned. -/
def isNegative (x : Float) : Bool :=
  match parts x with
  | .nan => false
  | .infinite negative => negative
  | .finite negative _ _ => negative

/-! ### Whole numbers -/

/-- The whole part of `m · 2^e`. -/
def wholePart (m : Nat) (e : Int) : Nat :=
  if 0 ≤ e then m <<< e.toNat else m >>> (-e).toNat

/-- The whole number nearest to `m · 2^e`; a half goes up. -/
def nearestWhole (m : Nat) (e : Int) : Nat :=
  if 0 ≤ e then m <<< e.toNat
  else (m + 1 <<< ((-e).toNat - 1)) >>> (-e).toNat

/-- The largest count: counts are held in 64 bits. -/
def maxCount : Nat := 0xffffffffffffffff

/-- A double as a count: its whole part, held between `0` and `maxCount`. What is not a
number counts as `0`. -/
def toCount (x : Float) : Nat :=
  match parts x with
  | .nan => 0
  | .infinite negative => if negative then 0 else maxCount
  | .finite negative m e => if negative then 0 else min (wholePart m e) maxCount

/-- A double as the nearest count, a half going up; otherwise as `toCount`. -/
def toNearestCount (x : Float) : Nat :=
  match parts x with
  | .nan => 0
  | .infinite negative => if negative then 0 else maxCount
  | .finite negative m e => if negative then 0 else min (nearestWhole m e) maxCount

/-- The least and greatest signed 64-bit number. -/
def minAddress : Int := -0x8000000000000000

@[inherit_doc minAddress]
def maxAddress : Int := 0x7fffffffffffffff

/-- A double as a memory address: truncated toward zero and held between `minAddress` and
`maxAddress`. What is not a number is address `0`. -/
def toAddress (x : Float) : Int :=
  match parts x with
  | .nan => 0
  | .infinite negative => if negative then minAddress else maxAddress
  | .finite negative m e =>
    if negative then max (-(wholePart m e : Int)) minAddress
    else min (wholePart m e : Int) maxAddress

/-! ### The smaller and the greater -/

/-- The smaller of two numbers; the other one if one is not a number. -/
def smaller (a b : Float) : Float :=
  if a.isNaN then b else if b.isNaN then a else if a < b then a else b

/-- The greater of two numbers; the other one if one is not a number. -/
def greater (a b : Float) : Float :=
  if a.isNaN then b else if b.isNaN then a else if b < a then a else b

/-! ### Remainders -/

/-- The double `±m · 2^e` for a significand below `2^53` and an exponent of at least
`-1074`, which makes the value exact. -/
def ofParts (negative : Bool) (m : Nat) (e : Int) : Float :=
  let magnitude :=
    if m = 0 then 0
    else
      let up := min (52 - m.log2) (e + 1074).toNat
      let place := (e + 1074).toNat - up
      place <<< 52 + m <<< up
  Float.ofBits (UInt64.ofNat (if negative then 1 <<< 63 + magnitude else magnitude))

/-- The remainder of dividing `x` by `y` toward zero. It is exact, has the sign of `x`, and
is not a number if `x` is infinite, `y` is zero, or either is not a number. -/
def remainder (x y : Float) : Float :=
  match parts x, parts y with
  | .nan, _ | _, .nan | .infinite _, _ => 0.0 / 0.0
  | .finite .., .infinite _ => x
  | .finite negative m e, .finite _ n f =>
    if n = 0 then 0.0 / 0.0
    else
      let low := min e f
      ofParts negative ((m <<< (e - low).toNat) % (n <<< (f - low).toNat)) low

end PointScope.Binary64

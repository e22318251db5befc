import PointScope.Numeric.Decimal

/-!
# The shortest decimal that reads back

Every real number closer to a double than to its two neighbours reads back as that double;
so do the two midpoints when the significand is even. `Shortest.decimal` finds the decimal
with the fewest digits in that interval, and of those the one nearest to the double.

The search goes through the grids of `1, 2, …, 17` significant digits. If a grid meets the
interval at all, then one of the two grid points around the double lies in it, so trying these
two is enough; the first grid with a hit has the fewest digits.
-/

namespace PointScope

/-- Quotient rounded to the nearest whole number, a half going to the even neighbour. -/
def divNearestEven (n d : Nat) : Nat :=
  let q := n / d
  let r := n % d
  if 2 * r < d || (2 * r = d && q % 2 = 0) then q else q + 1

/-- A positive number `m · 2^e` measured in units of `10^p`, as a fraction of whole numbers. -/
def inUnits (m : Nat) (e p : Int) : Nat × Nat :=
  ((m <<< e.toNat) * Nat.pow 10 (-p).toNat, (1 <<< (-e).toNat) * Nat.pow 10 p.toNat)

/-- The exponent of the leading decimal digit: the `k` with `10^k ≤ m · 2^e < 10^(k+1)`, for
positive `m`. The binary logarithm gives an estimate that is off by at most one, which the two
comparisons correct. -/
def leadingPlace (m : Nat) (e : Int) : Int :=
  let estimate := ((m.log2 + e) * 30103) / 100000
  let reaches (k : Int) : Bool := let (n, d) := inUnits m e k; d ≤ n
  if reaches (estimate + 1) then estimate + 1
  else if reaches estimate then estimate
  else estimate - 1

namespace Shortest

/-- Half the distance to the neighbour below, in quarters of the last place: the neighbour
below a power of two is only half as far away. -/
def gapBelow (m : Nat) (e : Int) : Nat :=
  if m = 1 <<< 52 && -1074 < e then 1 else 2

/-- Whether `c` points of a grid read back as the double, when a quarter of the double's last place
is `quarter / d` points. -/
def readsBack (m : Nat) (e : Int) (quarter d c : Nat) : Bool :=
  let n := 4 * m * quarter
  let low := n - gapBelow m e * quarter
  let high := n + 2 * quarter
  if m % 2 = 0 then low ≤ c * d && c * d ≤ high else low < c * d && c * d < high

/-- The two whole numbers around `n / d`, the nearer one first; of two equally near the upper
one. -/
def around (n d : Nat) : Nat × Nat :=
  let below := n / d
  if (2 * below + 1) * d ≤ 2 * n then (below + 1, below) else (below, below + 1)

/-- Of the two points of the grid `10^p` around `m · 2^e`, the nearest that reads back as the
double; of two equally near the upper one. -/
def onGrid? (m : Nat) (e p : Int) : Option Decimal :=
  let (quarter, d) := inUnits 1 (e - 2) p
  let (near, far) := around (4 * m * quarter) d
  if readsBack m e quarter d near then some ⟨near, p⟩
  else if readsBack m e quarter d far then some ⟨far, p⟩
  else none

/-- The decimal that equals `m · 2^e`. -/
def exact (m : Nat) (e : Int) : Decimal :=
  if 0 ≤ e then ⟨m <<< e.toNat, 0⟩ else ⟨m * Nat.pow 5 (-e).toNat, e⟩

/-- Moves trailing zeros of the digits into the exponent; `steps` bounds how many. -/
def stripZeros : Nat → Decimal → Decimal
  | 0, d => d
  | steps + 1, d =>
    if d.digits ≠ 0 && d.digits % 10 = 0 then stripZeros steps ⟨d.digits / 10, d.exponent + 1⟩
    else d

/-- The decimal with the fewest digits that reads back as the positive double `m · 2^e`, and
the nearest of those. -/
def decimal (m : Nat) (e : Int) : Decimal :=
  let top := leadingPlace m e
  let found := (List.range 17).findSome? fun (n : Nat) => onGrid? m e (top - n)
  stripZeros 18 (found.getD (exact m e))

end Shortest

end PointScope

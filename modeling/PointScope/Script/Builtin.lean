/-!
# Built-in functions

The functions that scripts can call, by name. Two of them read memory cells: `megabuf` the
scope's own memory, `gmegabuf` the memory it shares. `assign` is not among them; calls of it are
resolved to assignments when a script is parsed.
-/

namespace PointScope.Script

/-- The two memories a script can address. -/
inductive Bank where
  /-- The memory of one scope. -/
  | own
  /-- The memory that several scopes hold together. -/
  | shared
deriving DecidableEq, Repr

/-- The function that reads a cell of a bank, and with `assign` writes it. -/
def Bank.functionName : Bank → String
  | .own => "megabuf"
  | .shared => "gmegabuf"

/-- The built-in functions. -/
inductive Builtin where
  | sin | cos | tan | asin | acos | atan | atan2
  | sqrt | abs | floor | ceil | pow | exp | log | log10
  | min | max | clamp | sign | lerp | frac
  | rand
  | cell (bank : Bank)
deriving DecidableEq, Repr

namespace Builtin

/-- The name that scripts call a function by. -/
def name : Builtin → String
  | sin => "sin"
  | cos => "cos"
  | tan => "tan"
  | asin => "asin"
  | acos => "acos"
  | atan => "atan"
  | atan2 => "atan2"
  | sqrt => "sqrt"
  | abs => "abs"
  | floor => "floor"
  | ceil => "ceil"
  | pow => "pow"
  | exp => "exp"
  | log => "log"
  | log10 => "log10"
  | min => "min"
  | max => "max"
  | clamp => "clamp"
  | sign => "sign"
  | lerp => "lerp"
  | frac => "frac"
  | rand => "rand"
  | cell bank => bank.functionName

/-- Every built-in function. -/
def all : List Builtin :=
  [sin, cos, tan, asin, acos, atan, atan2, sqrt, abs, floor, ceil, pow, exp, log, log10,
    min, max, clamp, sign, lerp, frac, rand, cell .own, cell .shared]

/-- The function of a name, spelled as in `name`. -/
def ofName? (s : String) : Option Builtin := all.find? fun f => f.name == s

/-- The number of arguments that are evaluated; no function reads more. -/
def maxArgs : Nat := 3

end Builtin

end PointScope.Script

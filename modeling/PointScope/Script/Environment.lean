import PointScope.Memory.Basic
import PointScope.Random.Stream
import PointScope.Script.Builtin
import PointScope.Script.Variables
import PointScope.Text.Basic

/-!
# Environments

What a script runs against: variables, a random stream, its scope's own memory and the memory
shared with other scopes. Compiled scripts name variables in folded form and use `read` and
`write`; a host may use any letter case and goes through `get?`, `get`, `set` and `contains`,
which fold the name first.
-/

namespace PointScope.Script

/-- The state that scripts read and change. -/
structure Environment where
  vars : Variables
  random : Random.Stream
  own : Memory
  shared : Memory

namespace Environment

/-- No variables, an empty memory of its own, and the stream of a seed. -/
def new (seed : Nat) (shared : Memory) : Environment :=
  ⟨.empty, .ofSeed seed, .empty, shared⟩

/-! ### Variables as scripts see them -/

/-- The value of a variable; `0` if it was never set. -/
def read (env : Environment) (name : String) : Float := (env.vars.get? name).getD 0

/-- Sets a variable. -/
def write (env : Environment) (name : String) (value : Float) : Environment :=
  { env with vars := env.vars.set name value }

/-! ### Variables as the host sees them -/

/-- The value of a variable in any letter case, if it was set. -/
def get? (env : Environment) (name : String) : Option Float :=
  env.vars.get? (Text.fold name)

/-- The value of a variable in any letter case, or `default`. -/
def get (env : Environment) (name : String) (default : Float) : Float :=
  (env.get? name).getD default

/-- Sets a variable in any letter case. -/
def set (env : Environment) (name : String) (value : Float) : Environment :=
  env.write (Text.fold name) value

/-- Whether a variable is set. -/
def contains (env : Environment) (name : String) : Bool := (env.get? name).isSome

/-- Forgets all variables; memories and the random stream stay. -/
def clearVariables (env : Environment) : Environment := { env with vars := .empty }

/-! ### Memories and random numbers -/

/-- The memory of a bank. -/
def bank (env : Environment) : Bank → Memory
  | .own => env.own
  | .shared => env.shared

/-- Replaces the memory of a bank. -/
def setBank (env : Environment) (b : Bank) (m : Memory) : Environment :=
  match b with
  | .own => { env with own := m }
  | .shared => { env with shared := m }

/-- Writes a memory cell. -/
def writeCell (env : Environment) (b : Bank) (address : Int) (value : Float) : Environment :=
  env.setBank b ((env.bank b).set address value)

/-- The next random number. -/
def draw (env : Environment) : Float × Environment :=
  let (u, random) := env.random.draw
  (u, { env with random })

end Environment

end PointScope.Script

import PointScope.Numeric.Binary64
import PointScope.Script.Environment
import PointScope.Script.Expr

/-!
# Evaluation

Evaluation never fails: a variable that was never set and a function that does not exist give
`0`, and so does dividing by zero. Operands are evaluated from left to right; `&&` and `||`
leave out their right operand when the left one decides. Of a call's arguments only the first
three are evaluated, and none if its function does not exist.
-/

namespace PointScope.Script

/-- The number that stands for a truth value. -/
def truth (b : Bool) : Float := if b then 1 else 0

/-! ### Operators and functions on numbers -/

/-- A unary operator applied to a number. -/
def UnaryOp.apply (op : UnaryOp) (v : Float) : Float :=
  match op with
  | .neg => -v
  | .plus => v
  | .not => truth (v == 0)

/-- An operator applied to two numbers. The operators `!`, `&&` and `||` are not applied this
way and give `0`. -/
def Operator.apply (op : Operator) (a b : Float) : Float :=
  match op with
  | .plus => a + b
  | .minus => a - b
  | .times => a * b
  | .divide => if b == 0 then 0 else a / b
  | .modulo => if b == 0 then 0 else Binary64.remainder a b
  | .power => a.pow b
  | .equal => truth (a == b)
  | .notEqual => truth (a != b)
  | .less => truth (a < b)
  | .lessEqual => truth (a ≤ b)
  | .greater => truth (b < a)
  | .greaterEqual => truth (b ≤ a)
  | .not | .and | .or => 0

/-- The sign of a number: `1` if it is positive, `-1` if it is negative, and otherwise `0`. -/
def signOf (x : Float) : Float := if 0 < x then 1 else if x < 0 then -1 else 0

/-- A random number `u` between `0` and `1`, stretched as the number of arguments says: left as
it is, scaled to `[0, a)`, or scaled to `[a, b)`. -/
def stretch (u : Float) : List Float → Float
  | [] => u
  | [a] => u * a
  | a :: b :: _ => a + (b - a) * u

/-- Applies a function to the values of its arguments; missing ones count as `0`. -/
def Builtin.apply (f : Builtin) (args : List Float) (env : Environment) : Float × Environment :=
  let a := args[0]?.getD 0
  let b := args[1]?.getD 0
  let c := args[2]?.getD 0
  match f with
  | .sin => (a.sin, env)
  | .cos => (a.cos, env)
  | .tan => (a.tan, env)
  | .asin => (a.asin, env)
  | .acos => (a.acos, env)
  | .atan => (a.atan, env)
  | .atan2 => (a.atan2 b, env)
  | .sqrt => (a.sqrt, env)
  | .abs => (a.abs, env)
  | .floor => (a.floor, env)
  | .ceil => (a.ceil, env)
  | .pow => (a.pow b, env)
  | .exp => (a.exp, env)
  | .log => (a.log, env)
  | .log10 => (a.log10, env)
  | .min => (Binary64.smaller a b, env)
  | .max => (Binary64.greater a b, env)
  | .clamp => (Binary64.smaller (Binary64.greater a b) c, env)
  | .sign => (signOf a, env)
  | .lerp => (a + (b - a) * c, env)
  | .frac => (a - a.floor, env)
  | .rand =>
    let (u, env) := env.draw
    (stretch u args, env)
  | .cell bank => ((env.bank bank).get (Binary64.toAddress a), env)

/-! ### Expressions and statements -/

mutual

/-- The value of an expression, and the environment afterwards. -/
def eval : Expr → Environment → Float × Environment
  | .const v, env => (v, env)
  | .var name, env => (env.read name, env)
  | .unary op e, env =>
    let (v, env) := eval e env
    (op.apply v, env)
  | .binary .and l r, env =>
    let (a, env) := eval l env
    if a == 0 then (0, env)
    else
      let (b, env) := eval r env
      (truth (b != 0), env)
  | .binary .or l r, env =>
    let (a, env) := eval l env
    if a != 0 then (1, env)
    else
      let (b, env) := eval r env
      (truth (b != 0), env)
  | .binary op l r, env =>
    let (a, env) := eval l env
    let (b, env) := eval r env
    (op.apply a b, env)
  | .call _ none _, env => (0, env)
  | .call _ (some f) args, env =>
    let (vs, env) := evalArgs Builtin.maxArgs args env
    f.apply vs env
  | .assignVar name value, env =>
    let (v, env) := eval value env
    (v, env.write name v)
  | .assignCell bank index value, env =>
    let (i, env) := eval index env
    let (v, env) := eval value env
    (v, env.writeCell bank (Binary64.toAddress i) v)
  | .assignNone target value, env =>
    let (_, env) := eval target env
    eval value env

/-- The values of the first `n` arguments; the others are not evaluated. -/
def evalArgs : Nat → List Expr → Environment → List Float × Environment
  | 0, _, env => ([], env)
  | _, [], env => ([], env)
  | n + 1, e :: es, env =>
    let (v, env) := eval e env
    let (vs, env) := evalArgs n es env
    (v :: vs, env)

end

/-- Runs a statement. Its value is that of the variable it sets, or of its expression. -/
def Statement.run (s : Statement) (env : Environment) : Float × Environment :=
  match s with
  | .assign name value =>
    let (v, env) := eval value env
    (v, env.write name v)
  | .expr e => eval e env

/-- Runs statements in order. -/
def runAll (statements : List Statement) (env : Environment) : Environment :=
  statements.foldl (fun env s => (s.run env).2) env

/-- Runs every statement of a program in order. -/
def Program.run (p : Program) (env : Environment) : Environment := runAll p.statements env

/-- Runs statements in order, and keeps the value of each. -/
def runValues : List Statement → Environment → List Float × Environment
  | [], env => ([], env)
  | s :: rest, env =>
    let (v, env) := s.run env
    let (vs, env) := runValues rest env
    (v :: vs, env)

end PointScope.Script

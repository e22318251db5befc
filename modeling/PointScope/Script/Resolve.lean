import PointScope.Script.Diagnostic
import PointScope.Script.Expr

/-!
# Calls

What a call means once its name and all its arguments are known. A call of `assign` becomes an
assignment to its first argument if that can hold a value; a call of anything else is looked up
among the built-in functions.
-/

namespace PointScope.Script

/-- An expression, and what was wrong with it. -/
abbrev Checked := Expr × List Issue

/-- The name whose calls are assignments. -/
def assignName : String := "assign"

/-- The number that stands for a missing operand or argument. -/
def Expr.zero : Expr := .const 0

/-- Assigns a value to what `target` denotes: a variable, or a cell of a memory. Anything else
cannot hold a value. -/
def Expr.assignTo (target value : Expr) : Checked :=
  match target with
  | .var name => (.assignVar name value, [])
  | .call _ (some (.cell bank)) args => (.assignCell bank (args.head?.getD .zero) value, [])
  | target => (.assignNone target value, [.unwritableTarget])

/-- The assignment that a call of `assign` with these arguments is. -/
def assignment (args : List Expr) : Checked :=
  let extra := if 2 < args.length then [Issue.extraAssignArguments] else []
  match args with
  | [] => (.zero, [.assignWithoutTarget])
  | target :: rest =>
    let (e, issues) := target.assignTo (rest.head?.getD .zero)
    (e, extra ++ issues)

/-- The expression that a call stands for. -/
def resolveCall (name : String) (args : List Expr) : Checked :=
  if name = assignName then assignment args
  else
    let function := Builtin.ofName? name
    (.call name function args, if function.isNone then [.unknownFunction name] else [])

end PointScope.Script

import PointScope.Numeric.Layout
import PointScope.Script.Builtin
import PointScope.Script.Token

/-!
# Expressions and programs

A script is a list of statements over expressions. `assign(target, value)` is resolved when a
script is parsed, so each kind of target is an expression of its own. Every expression and
statement has a written form, `display`, with all parentheses spelled out.
-/

namespace PointScope.Script

/-- The operators that stand before one operand. -/
inductive UnaryOp where
  | neg
  | plus
  | not
deriving DecidableEq, Repr

/-- How a unary operator is written. -/
def UnaryOp.symbol : UnaryOp → String
  | neg => "-"
  | plus => "+"
  | not => "!"

/-- The unary operator that an operator before its operand stands for. -/
def Operator.unary? : Operator → Option UnaryOp
  | .minus => some .neg
  | .plus => some .plus
  | .not => some .not
  | _ => none

/-- Expressions. -/
inductive Expr where
  /-- A number. -/
  | const (value : Float)
  /-- A variable, read by its name. -/
  | var (name : String)
  /-- An operator applied to one operand. -/
  | unary (op : UnaryOp) (operand : Expr)
  /-- An operator between two operands. -/
  | binary (op : Operator) (left right : Expr)
  /-- A call, with the function its name stands for, if there is one. -/
  | call (name : String) (function : Option Builtin) (args : List Expr)
  /-- `assign` to a variable. -/
  | assignVar (name : String) (value : Expr)
  /-- `assign` to a memory cell. -/
  | assignCell (bank : Bank) (index value : Expr)
  /-- `assign` to something that holds no value: both parts are evaluated, nothing is stored. -/
  | assignNone (target value : Expr)
deriving Inhabited

mutual

/-- The written form of an expression. -/
def Expr.display : Expr → String
  | .const value => NumberText.shortest value
  | .var name => name
  | .unary op e => "(" ++ op.symbol ++ e.display ++ ")"
  | .binary op l r => "(" ++ l.display ++ " " ++ op.symbol ++ " " ++ r.display ++ ")"
  | .call name _ args => name ++ "(" ++ displayArgs args ++ ")"
  | .assignVar name value => "assign(" ++ name ++ ", " ++ value.display ++ ")"
  | .assignCell bank index value =>
    "assign(" ++ bank.functionName ++ "(" ++ index.display ++ "), " ++ value.display ++ ")"
  | .assignNone target value => "assign(" ++ target.display ++ ", " ++ value.display ++ ")"

/-- The written forms of arguments, with commas between them. -/
def displayArgs : List Expr → String
  | [] => ""
  | [e] => e.display
  | e :: es => e.display ++ ", " ++ displayArgs es

end

/-- Statements. -/
inductive Statement where
  /-- `name = value`. -/
  | assign (name : String) (value : Expr)
  /-- An expression evaluated for its effects. -/
  | expr (e : Expr)
deriving Inhabited

/-- The written form of a statement. -/
def Statement.display : Statement → String
  | .assign name value => name ++ " = " ++ value.display
  | .expr e => e.display

/-- A compiled script. -/
inductive Program where
  /-- Nothing to run. -/
  | empty
  /-- Statements to be run in order. Compiling lists at least one. -/
  | listed (statements : List Statement)
deriving Inhabited

namespace Program

/-- The program that runs some statements. -/
def ofStatements (statements : List Statement) : Program :=
  if statements.isEmpty then empty else listed statements

/-- The statements of a program. -/
def statements : Program → List Statement
  | empty => []
  | listed statements => statements

/-- Whether there is nothing to run. -/
def isEmpty : Program → Bool
  | empty => true
  | listed _ => false

/-- Whatever a program is made of is what it runs. -/
@[simp] theorem statements_ofStatements (statements : List Statement) :
    (ofStatements statements).statements = statements := by
  cases statements <;> rfl

/-- No program that is made of statements lists none. -/
theorem ofStatements_ne_listed_nil (statements : List Statement) :
    ofStatements statements ≠ listed [] := by
  cases statements <;> exact nofun

end Program

end PointScope.Script

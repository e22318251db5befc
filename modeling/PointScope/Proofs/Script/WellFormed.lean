import PointScope.Proofs.Numeric.ReadBack
import PointScope.Proofs.Script.Words

/-!
# Well-formed expressions

The expressions that a program can hold: numbers without a sign, names without capital letters,
operators of two operands between two operands, calls looked up among the built-in functions, and
assignments to what they assign to. `Expr.issues` lists what is reported when such an expression
is read: one issue for each call of an unknown function and one for each assignment that stores
nothing, in the order in which the calls end.
-/

namespace PointScope.Script

/-- Whether an expression can be assigned to: a variable, or a cell of a memory. -/
def Expr.isWritable : Expr → Bool
  | .var _ => true
  | .call _ (some (.cell _)) _ => true
  | _ => false

/-- The expressions that are parsed. -/
inductive Expr.WellFormed : Expr → Prop
  | const {value : Float} (hvalue : Binary64.IsMagnitude value) : WellFormed (.const value)
  | var {name : String} (hname : IsIdentifier name) : WellFormed (.var name)
  | unary {op : UnaryOp} {e : Expr} (he : e.WellFormed) : WellFormed (.unary op e)
  | binary {op : Operator} {l r : Expr} (hop : op.infixPower.isSome) (hl : l.WellFormed)
      (hr : r.WellFormed) : WellFormed (.binary op l r)
  | call {name : String} {args : List Expr} (hname : IsIdentifier name) (hne : name ≠ assignName)
      (hargs : ∀ e ∈ args, e.WellFormed) : WellFormed (.call name (Builtin.ofName? name) args)
  | assignVar {name : String} {value : Expr} (hname : IsIdentifier name)
      (hvalue : value.WellFormed) : WellFormed (.assignVar name value)
  | assignCell {bank : Bank} {index value : Expr} (hindex : index.WellFormed)
      (hvalue : value.WellFormed) : WellFormed (.assignCell bank index value)
  | assignNone {target value : Expr} (htarget : target.WellFormed)
      (hwritable : target.isWritable = false) (hvalue : value.WellFormed) :
      WellFormed (.assignNone target value)

/-- A statement whose name and expression are well formed. -/
inductive Statement.WellFormed : Statement → Prop
  | assign {name : String} {value : Expr} (hname : IsIdentifier name) (hvalue : value.WellFormed) :
      WellFormed (.assign name value)
  | expr {e : Expr} (he : e.WellFormed) : WellFormed (.expr e)

/-! ### What is reported -/

mutual

/-- What is wrong with the calls in an expression. -/
def Expr.issues : Expr → List Issue
  | .const _ | .var _ => []
  | .unary _ e => e.issues
  | .binary _ l r => l.issues ++ r.issues
  | .call name function args =>
    issuesOfArgs args ++ if function.isNone then [.unknownFunction name] else []
  | .assignVar _ value => value.issues
  | .assignCell _ index value => index.issues ++ value.issues
  | .assignNone target value => target.issues ++ value.issues ++ [.unwritableTarget]

@[inherit_doc Expr.issues]
def issuesOfArgs : List Expr → List Issue
  | [] => []
  | e :: es => e.issues ++ issuesOfArgs es

end

private theorem forall_mem_issuesOfArgs {P : Issue → Prop} {es : List Expr}
    (h : ∀ e ∈ es, ∀ i ∈ e.issues, P i) : ∀ i ∈ issuesOfArgs es, P i := by
  induction es with
  | nil => simp [issuesOfArgs]
  | cons e es ih =>
    obtain ⟨he, hes⟩ := List.forall_mem_cons.mp h
    rw [issuesOfArgs]
    exact List.forall_mem_append.mpr ⟨he, ih hes⟩

/-- Only unknown functions and assignments that store nothing are reported. -/
theorem Expr.WellFormed.mem_issues {e : Expr} (he : e.WellFormed) :
    ∀ i ∈ e.issues, i = .unwritableTarget ∨
      ∃ name, i = .unknownFunction name ∧ Builtin.ofName? name = none := by
  induction he with
  | const | var => simp [Expr.issues]
  | unary _ ih => exact ih
  | binary _ _ _ ihl ihr =>
    rw [Expr.issues]
    exact List.forall_mem_append.mpr ⟨ihl, ihr⟩
  | @call name args _ _ _ ih =>
    rw [Expr.issues]
    refine List.forall_mem_append.mpr ⟨forall_mem_issuesOfArgs ih, ?_⟩
    intro i hi
    -- a call is noticed only if nothing has its name
    cases hfunction : Builtin.ofName? name with
    | none => exact .inr ⟨name, by simpa [hfunction] using hi, hfunction⟩
    | some function => simp [hfunction] at hi
  | assignVar _ _ ih => exact ih
  | assignCell _ _ ihi ihv =>
    rw [Expr.issues]
    exact List.forall_mem_append.mpr ⟨ihi, ihv⟩
  | assignNone _ _ _ iht ihv =>
    rw [Expr.issues]
    refine List.forall_mem_append.mpr ⟨List.forall_mem_append.mpr ⟨iht, ihv⟩, ?_⟩
    exact List.forall_mem_singleton.mpr (.inl rfl)

/-! ### Reading calls -/

/-- A call of anything but `assign` is kept as it is, and reported if nothing has its name. -/
private theorem resolveCall_of_ne {name : String} (hne : name ≠ assignName) (args : List Expr) :
    resolveCall name args = (.call name (Builtin.ofName? name) args,
      if (Builtin.ofName? name).isNone then [.unknownFunction name] else []) :=
  if_neg hne

/-- `assign` to a variable sets it. -/
theorem resolveCall_assignVar (name : String) (value : Expr) :
    resolveCall assignName [.var name, value] = (.assignVar name value, []) := rfl

private theorem resolveCall_cell (bank : Bank) (index : Expr) :
    resolveCall bank.functionName [index] =
      (.call bank.functionName (some (.cell bank)) [index], []) := by
  cases bank <;> rfl

/-- `assign` to a call of a buffer function writes a cell. -/
theorem resolveCall_assignCell (bank : Bank) (name : String) (index value : Expr) :
    resolveCall assignName [.call name (some (.cell bank)) [index], value] =
      (.assignCell bank index value, []) := rfl

private theorem resolveCall_assignNone {target : Expr} (htarget : target.isWritable = false)
    (value : Expr) :
    resolveCall assignName [target, value] =
      (.assignNone target value, [.unwritableTarget]) := by
  -- the two targets that could be stored to are excluded
  have hassign : target.assignTo value = (.assignNone target value, [.unwritableTarget]) := by
    unfold Expr.assignTo
    split
    · cases htarget
    · cases htarget
    · rfl
  simp [resolveCall, assignment, hassign]

/-! ### Reading names and numbers -/

theorem isIdentifier_assignName : IsIdentifier assignName :=
  ⟨⟨_, _, rfl, by decide⟩, by decide +kernel⟩

theorem isIdentifier_functionName (bank : Bank) : IsIdentifier bank.functionName := by
  cases bank <;> exact ⟨⟨_, _, rfl, by decide⟩, by decide +kernel⟩

theorem IsName.lexes {name : String} (h : IsName name.toList) :
    Lexes name.toList [word .name name] := by
  have hlexes := Lexes.name h
  rwa [String.ofList_toList] at hlexes

/-- The name that is read is the name that is written. -/
theorem IsIdentifier.operand {name : String} (h : IsIdentifier name) :
    Operand [word .name name] (.var name, []) := by
  have hoperand := Operand.variable (t := word .name name) rfl
  rwa [word, h.folded] at hoperand

/-- The shortest digits of a number are a numeral. -/
theorem isNumeral_shortest {value : Float} (h : Binary64.IsMagnitude value) :
    IsNumeral (NumberText.shortest value).toList := by
  obtain ⟨c, cs, htext, hdigit, hpart, hcount⟩ := NumberText.exists_shortest h
  refine ⟨c, cs, htext, ?_, hpart, htext ▸ hcount⟩
  rw [startsNumber, hdigit, Bool.true_or]

/-- The shortest form of a number reads as one numeral. -/
theorem lexes_shortest {value : Float} (h : Binary64.IsMagnitude value) :
    Lexes (NumberText.shortest value).toList [word .number (NumberText.shortest value)] := by
  have hlexes := Lexes.number (isNumeral_shortest h)
  rwa [String.ofList_toList] at hlexes

/-- The number that is read is the number that is written. -/
theorem operand_shortest {value : Float} (h : Binary64.IsMagnitude value) :
    Operand [word .number (NumberText.shortest value)] (.const value, []) := by
  have hoperand := Operand.number (t := word .number (NumberText.shortest value)) rfl
  rwa [word, readDouble?_shortest h] at hoperand

/-! ### Phrases -/

/-- Tokens in parentheses. -/
def parenthesized (ts : List Token) : List Token :=
  word .leftParen "(" :: (ts ++ [word .rightParen ")"])

/-- The tokens of a call of `name`, of which `ts` are those of the arguments. -/
def callWords (name : String) (ts : List Token) : List Token :=
  word .name name :: parenthesized ts

/-- The tokens of two arguments. -/
def pairWords (ts us : List Token) : List Token := ts ++ word .comma "," :: us

/-- An expression in parentheses is an operand. -/
theorem operand_parenthesized {ts : List Token} {x : Checked} (hx : Expression 0 ts x) :
    Operand (parenthesized ts) x := .group rfl hx rfl

section Calls

variable {name : String} {ts us : List Token}

theorem operand_callWords_nil (hname : IsIdentifier name) (hne : name ≠ assignName) :
    Operand (callWords name []) (.call name (Builtin.ofName? name) [],
      (Expr.call name (Builtin.ofName? name) []).issues) := by
  have hcall := Operand.callNone (f := word .name name) (l := word .leftParen "(")
    (r := word .rightParen ")") rfl rfl rfl
  rwa [word, hname.folded, resolveCall_of_ne hne] at hcall

/-- A written call is an operand and stands for the call, whatever its arguments are. -/
theorem operand_callWords {args : List Expr} (hname : IsIdentifier name) (hne : name ≠ assignName)
    (hargs : Arguments ts (args, issuesOfArgs args)) :
    Operand (callWords name ts) (.call name (Builtin.ofName? name) args,
      (Expr.call name (Builtin.ofName? name) args).issues) := by
  have hcall := Operand.call (f := word .name name) (l := word .leftParen "(")
    (r := word .rightParen ")") rfl rfl hargs rfl
  rwa [word, hname.folded, resolveCall_of_ne hne] at hcall

/-- A call of `assign` in any letter case is what its two arguments make. -/
theorem operand_assign (hassign : Text.fold name = assignName) {x y : Checked}
    (hx : Expression 0 ts x) (hy : Expression 0 us y) :
    Operand (callWords name (pairWords ts us))
      ((resolveCall assignName [x.1, y.1]).1,
        x.2 ++ y.2 ++ (resolveCall assignName [x.1, y.1]).2) := by
  have hcall := Operand.call (f := word .name name) (l := word .leftParen "(")
    (r := word .rightParen ")") rfl rfl (.more hx (t := word .comma ",") rfl (.one hy)) rfl
  rwa [word, hassign] at hcall

/-- A cell of a memory, with the name of its function in any letter case. -/
theorem operand_cell {bank : Bank} (hcell : Text.fold name = bank.functionName) {x : Checked}
    (hx : Expression 0 ts x) :
    Operand (callWords name ts) (.call bank.functionName (some (.cell bank)) [x.1], x.2) := by
  have hcall := Operand.call (f := word .name name) (l := word .leftParen "(")
    (r := word .rightParen ")") rfl rfl (.one hx) rfl
  rwa [word, hcell, resolveCall_cell, List.append_nil] at hcall

variable {value : Expr} (hvalue : Expression 0 us (value, value.issues))

include hvalue

/-- A written `assign` to a variable stands for setting it. -/
theorem operand_assignVar (hname : IsIdentifier name) :
    Operand (callWords assignName (pairWords [word .name name] us))
      (.assignVar name value, (Expr.assignVar name value).issues) := by
  have hassign := operand_assign isIdentifier_assignName.folded (.operand hname.operand) hvalue
  rwa [resolveCall_assignVar, List.nil_append, List.append_nil] at hassign

/-- A written `assign` to a cell stands for writing it. -/
theorem operand_assignCell {bank : Bank} {index : Expr}
    (hindex : Expression 0 ts (index, index.issues)) :
    Operand (callWords assignName (pairWords (callWords bank.functionName ts) us))
      (.assignCell bank index value, (Expr.assignCell bank index value).issues) := by
  have hcell := operand_cell (isIdentifier_functionName bank).folded hindex
  have hassign := operand_assign isIdentifier_assignName.folded (.operand hcell) hvalue
  rwa [resolveCall_assignCell, List.append_nil] at hassign

/-- A written `assign` to anything else stands for an `assign` that stores nothing. -/
theorem operand_assignNone {target : Expr} (htarget : Expression 0 ts (target, target.issues))
    (hwritable : target.isWritable = false) :
    Operand (callWords assignName (pairWords ts us))
      (.assignNone target value, (Expr.assignNone target value).issues) := by
  have hassign := operand_assign isIdentifier_assignName.folded htarget hvalue
  rwa [resolveCall_assignNone hwritable] at hassign

end Calls

/-- The operator that a unary operator is written with. -/
def UnaryOp.operator : UnaryOp → Operator
  | neg => .minus
  | plus => .plus
  | not => .not

theorem UnaryOp.unary?_operator (u : UnaryOp) : u.operator.unary? = some u := by
  cases u <;> rfl

theorem operand_unary {u : UnaryOp} {e : Expr} {ts : List Token} (he : Operand ts (e, e.issues)) :
    Operand (word (.operator u.operator) u.symbol :: ts) (.unary u e, (Expr.unary u e).issues) :=
  .unary rfl u.unary?_operator he

/-- A written operator between two operands stands for it where looser operators may stand. -/
theorem expression_binary {p q : Nat} {op : Operator} {l r : Expr} {ts us : List Token}
    (hop : op.infixPower = some q) (hq : p < q) (hl : Expression (q - 1) ts (l, l.issues))
    (hr : Expression q us (r, r.issues)) :
    Expression p (ts ++ word (.operator op) op.symbol :: us)
      (.binary op l r, (Expr.binary op l r).issues) :=
  .binary rfl hop hq hl hr

end PointScope.Script

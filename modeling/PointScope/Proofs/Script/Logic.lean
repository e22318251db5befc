import PointScope.Script.Evaluation

/-!
# The laws of logic

`!`, `&&` and `||` ask of an operand whether its value is zero. What is not a number is not zero,
and both zeros are. So an operand is a *test* (`Expr.test`): it answers yes or no, and leaves an
environment behind. A logical expression has the value `1` or `0` that its test says
(`Expr.IsLogical`), and its test is put together from those of its operands: `!` turns the answer
around (`test_not`), and `&&` and `||` go on to the right operand only if the left one does not
decide (`test_and`, `test_or`).

Two logical expressions are therefore the same, in value and in effects, as soon as their tests are
(`Expr.IsLogical.same`), and those laws of Boolean algebra that keep the order of the operands hold
for operands of any value and with any effects (`boolean_laws`).
-/

namespace PointScope.Script

/-- Two expressions that have the same value and the same effects, wherever they are evaluated. -/
def Expr.Same (e e' : Expr) : Prop := ∀ env, eval e env = eval e' env

/-! ### Tests -/

/-- An expression as a test: whether its value is other than zero, and what it leaves behind. -/
def Expr.test (e : Expr) (env : Environment) : Bool × Environment :=
  ((eval e env).1 != 0, (eval e env).2)

/-- The value of the expression is `1` if its test says yes, and otherwise `0`. -/
def Expr.IsLogical (e : Expr) : Prop :=
  ∀ env, eval e env = (truth (e.test env).1, (e.test env).2)

/-- Only the tests of logical expressions matter. -/
theorem Expr.IsLogical.same {e e' : Expr} (he : e.IsLogical) (he' : e'.IsLogical)
    (htest : ∀ env, e.test env = e'.test env) : e.Same e' := by
  intro env
  rw [he env, he' env, htest env]

/-- A truth value is zero only if it is false. -/
private theorem truth_bne_zero (b : Bool) : (truth b != 0) = b := by
  cases b <;> decide

/-- The test of an expression with a truth value says which one it is. -/
theorem Expr.test_of_eval {e : Expr} {env : Environment} {x : Bool × Environment}
    (h : eval e env = (truth x.1, x.2)) : e.test env = x := by
  rw [Expr.test, h, truth_bne_zero]

/-- An expression is logical if its value is always a truth value. -/
private theorem Expr.IsLogical.of_eval {e : Expr} {f : Environment → Bool × Environment}
    (h : ∀ env, eval e env = (truth (f env).1, (f env).2)) : e.IsLogical := by
  intro env
  rw [Expr.test_of_eval (h env)]
  exact h env

private theorem test_one (env : Environment) : (Expr.const 1).test env = (true, env) :=
  Expr.test_of_eval (x := (true, env)) (by rw [eval]; rfl)

private theorem test_zero (env : Environment) : (Expr.const 0).test env = (false, env) :=
  Expr.test_of_eval (x := (false, env)) (by rw [eval]; rfl)

/-! ### `!`, `&&` and `||` as tests -/

section Operators

variable (l r : Expr) (env : Environment)

private theorem eval_not :
    eval (.unary .not l) env = (truth (!(l.test env).1), (l.test env).2) := by
  rw [eval, Expr.test, bne, Bool.not_not]
  rfl

/-- The test of `&&` goes on to the right operand if the left one says yes. -/
def testAnd : Bool × Environment :=
  match l.test env with
  | (true, middle) => r.test middle
  | (false, middle) => (false, middle)

/-- The test of `||` goes on to the right operand if the left one says no. -/
def testOr : Bool × Environment :=
  match l.test env with
  | (true, middle) => (true, middle)
  | (false, middle) => r.test middle

private theorem eval_and :
    eval (.binary .and l r) env = (truth (testAnd l r env).1, (testAnd l r env).2) := by
  rw [eval, testAnd, Expr.test, bne]
  dsimp only
  cases (eval l env).1 == 0 <;> rfl

private theorem eval_or :
    eval (.binary .or l r) env = (truth (testOr l r env).1, (testOr l r env).2) := by
  rw [eval, testOr, Expr.test]
  dsimp only
  cases (eval l env).1 != 0 <;> rfl

theorem test_not : (Expr.unary .not l).test env = (!(l.test env).1, (l.test env).2) :=
  Expr.test_of_eval (eval_not l env)

theorem test_and : (Expr.binary .and l r).test env = testAnd l r env :=
  Expr.test_of_eval (eval_and l r env)

theorem test_or : (Expr.binary .or l r).test env = testOr l r env :=
  Expr.test_of_eval (eval_or l r env)

private theorem isLogical_not : (Expr.unary .not l).IsLogical :=
  .of_eval (f := fun env => (!(l.test env).1, (l.test env).2)) (eval_not l)

private theorem isLogical_and : (Expr.binary .and l r).IsLogical := .of_eval (eval_and l r)

private theorem isLogical_or : (Expr.binary .or l r).IsLogical := .of_eval (eval_or l r)

end Operators

/-! ### The laws -/

section Laws

variable (a b c : Expr)

/-- **De Morgan's law** for `&&`. -/
theorem not_and_same :
    (Expr.unary .not (.binary .and a b)).Same
      (.binary .or (.unary .not a) (.unary .not b)) := by
  refine (isLogical_not _).same (isLogical_or _ _) fun env => ?_
  rw [test_not, test_and, test_or, testAnd, testOr, test_not]
  obtain ⟨_ | _, middle⟩ := a.test env
  · rfl
  · exact (test_not b middle).symm

/-- **De Morgan's law** for `||`. -/
theorem not_or_same :
    (Expr.unary .not (.binary .or a b)).Same
      (.binary .and (.unary .not a) (.unary .not b)) := by
  refine (isLogical_not _).same (isLogical_and _ _) fun env => ?_
  rw [test_not, test_and, test_or, testAnd, testOr, test_not]
  obtain ⟨_ | _, middle⟩ := a.test env
  · exact (test_not b middle).symm
  · rfl

/-- `&&` is associative. -/
theorem and_assoc_same :
    (Expr.binary .and (.binary .and a b) c).Same (.binary .and a (.binary .and b c)) := by
  refine (isLogical_and _ _).same (isLogical_and _ _) fun env => ?_
  rw [test_and, test_and, testAnd, testAnd, test_and, testAnd]
  obtain ⟨_ | _, middle⟩ := a.test env
  · rfl
  · exact (test_and b c middle).symm

/-- `||` is associative. -/
theorem or_assoc_same :
    (Expr.binary .or (.binary .or a b) c).Same (.binary .or a (.binary .or b c)) := by
  refine (isLogical_or _ _).same (isLogical_or _ _) fun env => ?_
  rw [test_or, test_or, testOr, testOr, test_or, testOr]
  obtain ⟨_ | _, middle⟩ := a.test env
  · exact (test_or b c middle).symm
  · rfl

/-- Denying twice gives the truth value of an expression, not the expression itself. -/
theorem not_not_same :
    (Expr.unary .not (.unary .not a)).Same (.binary .and a (.const 1)) := by
  refine (isLogical_not _).same (isLogical_and _ _) fun env => ?_
  rw [test_not, test_not, test_and, testAnd]
  obtain ⟨_ | _, middle⟩ := a.test env
  · rfl
  · exact (test_one middle).symm

/-- Both operators give the truth value of an operand that the other one does not decide. -/
theorem and_one_same :
    (Expr.binary .and a (.const 1)).Same (.binary .or a (.const 0)) := by
  refine (isLogical_and _ _).same (isLogical_or _ _) fun env => ?_
  rw [test_and, test_or, testAnd, testOr]
  obtain ⟨_ | _, middle⟩ := a.test env
  · exact (test_zero middle).symm
  · exact test_one middle

/-- De Morgan's laws, the associativity of `&&` and `||`, and the three ways to write the truth
value of an operand, in value and in effects. -/
theorem boolean_laws :
    (Expr.unary .not (.binary .and a b)).Same
        (.binary .or (.unary .not a) (.unary .not b)) ∧
      (Expr.unary .not (.binary .or a b)).Same
        (.binary .and (.unary .not a) (.unary .not b)) ∧
      (Expr.binary .and (.binary .and a b) c).Same (.binary .and a (.binary .and b c)) ∧
      (Expr.binary .or (.binary .or a b) c).Same (.binary .or a (.binary .or b c)) ∧
      (Expr.unary .not (.unary .not a)).Same (.binary .and a (.const 1)) ∧
      (Expr.binary .and a (.const 1)).Same (.binary .or a (.const 0)) :=
  ⟨not_and_same a b, not_or_same a b, and_assoc_same a b c, or_assoc_same a b c,
    not_not_same a, and_one_same a⟩

end Laws
end PointScope.Script

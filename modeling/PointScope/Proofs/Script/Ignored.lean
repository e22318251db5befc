import PointScope.Proofs.Script.Visits
import PointScope.Script.Resolve

/-!
# Ignored arguments

A call of a function that does not exist is `0`, arguments behind the third are ignored, and a
missing argument of any function but `rand` counts as `0`. `Expr.trimmed` writes this down: it puts
`0` for such calls, cuts the arguments of the others, and fills them up, at every depth. A program
and its trimmed form do the same (`ignored_arguments`): each statement has the same value, the
environment is the same in the end, and the variables, cells and random numbers that are set,
written and drawn on the way are the same, one after another. So nothing in an ignored argument ever
happens.

The evaluation of the arguments has to be followed with the number of those that may still come
(`evalArgs_padding`), since the zeros that are filled in stand behind the others.
-/

namespace PointScope.Script

/-! ### Trimmed programs -/

/-- Arguments with zeros for those that are missing. The arguments of `rand` are counted, and none
is filled in. -/
def Builtin.padded (function : Builtin) (args : List Expr) : List Expr :=
  if function = .rand then args else args ++ List.replicate (maxArgs - args.length) .zero

mutual

/-- An expression without its ignored arguments. -/
def Expr.trimmed : Expr → Expr
  | .const value => .const value
  | .var name => .var name
  | .unary op e => .unary op e.trimmed
  | .binary op l r => .binary op l.trimmed r.trimmed
  | .call _ none _ => .zero
  | .call name (some function) args =>
    .call name (some function) (function.padded (trimmedArgs Builtin.maxArgs args))
  | .assignVar name value => .assignVar name value.trimmed
  | .assignCell bank index value => .assignCell bank index.trimmed value.trimmed
  | .assignNone target value => .assignNone target.trimmed value.trimmed

/-- The first `n` arguments without what is ignored in them. -/
def trimmedArgs : Nat → List Expr → List Expr
  | 0, _ => []
  | _, [] => []
  | n + 1, e :: es => e.trimmed :: trimmedArgs n es

end

@[inherit_doc Expr.trimmed]
def Statement.trimmed : Statement → Statement
  | .assign name value => .assign name value.trimmed
  | .expr e => .expr e.trimmed

/-- A program without the ignored arguments in it. -/
def Program.trimmed (p : Program) : Program := .ofStatements (p.statements.map Statement.trimmed)

theorem Program.statements_trimmed (p : Program) :
    p.trimmed.statements = p.statements.map Statement.trimmed :=
  statements_ofStatements _

/-! ### Values -/

private theorem length_trimmedArgs_le (n : Nat) (args : List Expr) :
    (trimmedArgs n args).length ≤ n := by
  induction n generalizing args with
  | zero => exact Nat.le_of_eq (by rw [trimmedArgs]; rfl)
  | succ n ih =>
    cases args with
    | nil => exact Nat.zero_le _
    | cons e es => exact Nat.succ_le_succ (ih es)

private theorem evalArgs_zeros (n : Nat) (env : Environment) :
    evalArgs n (List.replicate n .zero) env = (List.replicate n 0, env) := by
  induction n with
  | zero => rfl
  | succ n ih =>
    rw [List.replicate_succ, List.replicate_succ, evalArgs]
    change (0 :: (evalArgs n (List.replicate n .zero) env).1, _) = _
    rw [ih]

/-- Zeros behind the arguments are evaluated to zeros behind their values. -/
theorem evalArgs_padding {n : Nat} {args : List Expr} (h : args.length ≤ n) (env : Environment) :
    evalArgs n (args ++ List.replicate (n - args.length) .zero) env =
      ((evalArgs n args env).1 ++ List.replicate (n - args.length) 0, (evalArgs n args env).2) := by
  induction args generalizing n env with
  | nil =>
    rw [List.nil_append, List.length_nil, Nat.sub_zero, evalArgs_zeros]
    cases n <;> rfl
  | cons e es ih =>
    obtain ⟨n, rfl⟩ := Nat.exists_eq_add_of_le' (Nat.le_trans (Nat.le_add_left 1 _) h)
    have hrest := ih (Nat.le_of_succ_le_succ h) (eval e env).2
    rw [List.cons_append, List.length_cons, Nat.add_sub_add_right, evalArgs, evalArgs]
    dsimp only
    rw [hrest]
    rfl

/-- A function but `rand` cannot tell a missing argument from `0`. -/
theorem Builtin.apply_padding {function : Builtin} (hfunction : function ≠ .rand)
    (values : List Float) (n : Nat) (env : Environment) :
    function.apply (values ++ List.replicate n 0) env = function.apply values env := by
  have hvalue : ∀ i : Nat, (values ++ List.replicate n 0)[i]?.getD 0 = values[i]?.getD 0 := by
    intro i
    rw [List.getElem?_append]
    split
    · rfl
    · rw [List.getElem?_replicate, List.getElem?_eq_none (Nat.le_of_not_lt ‹_›)]
      split <;> rfl
  cases function with
  | rand => exact absurd rfl hfunction
  | _ => simp only [Builtin.apply, hvalue]

/-- A function gives the same for the arguments that are filled in. -/
theorem Builtin.apply_padded (function : Builtin) {args : List Expr}
    (hargs : args.length ≤ maxArgs) (env : Environment) :
    function.apply (evalArgs maxArgs (function.padded args) env).1
        (evalArgs maxArgs (function.padded args) env).2 =
      function.apply (evalArgs maxArgs args env).1 (evalArgs maxArgs args env).2 := by
  unfold Builtin.padded
  split
  · rfl
  · rw [evalArgs_padding hargs, Builtin.apply_padding ‹_›]

mutual

/-- **What is ignored has no effect** on the value of an expression, nor on the environment. -/
theorem eval_trimmed (e : Expr) (env : Environment) : eval e.trimmed env = eval e env := by
  match e with
  | .const _ | .var _ | .call _ none _ => rfl
  | .unary op e => rw [Expr.trimmed, eval, eval, eval_trimmed e]
  | .binary op l r =>
    rw [Expr.trimmed, eval_binary, eval_binary, eval_trimmed l, eval_trimmed r]
  | .call name (some function) args =>
    have hargs := evalArgs_trimmedArgs Builtin.maxArgs args env
    -- a function reads zeros where arguments are missing
    have happly := function.apply_padded (length_trimmedArgs_le Builtin.maxArgs args) env
    rw [hargs] at happly
    exact happly
  | .assignVar name value => rw [Expr.trimmed, eval, eval, eval_trimmed value]
  | .assignCell bank index value =>
    rw [Expr.trimmed, eval, eval, eval_trimmed index]
    dsimp only
    rw [eval_trimmed value]
  | .assignNone target value =>
    rw [Expr.trimmed, eval, eval, eval_trimmed target]
    exact eval_trimmed value _

/-- The arguments that are evaluated have the same values. -/
private theorem evalArgs_trimmedArgs (n : Nat) (args : List Expr) (env : Environment) :
    evalArgs n (trimmedArgs n args) env = evalArgs n args env := by
  match n, args with
  | 0, _ => rw [trimmedArgs, evalArgs, evalArgs]
  | n + 1, [] => rfl
  | n + 1, e :: es =>
    rw [trimmedArgs, evalArgs, evalArgs, eval_trimmed e]
    dsimp only
    rw [evalArgs_trimmedArgs n es]

end

private theorem Statement.run_trimmed (s : Statement) (env : Environment) :
    s.trimmed.run env = s.run env := by
  cases s with
  | assign name value => rw [Statement.trimmed, Statement.run, Statement.run, eval_trimmed]
  | expr e => exact eval_trimmed e env

/-- Statements have the same values without the arguments that are ignored. -/
theorem runValues_trimmed (statements : List Statement) (env : Environment) :
    runValues (statements.map Statement.trimmed) env = runValues statements env := by
  induction statements generalizing env with
  | nil => rfl
  | cons s rest ih =>
    rw [List.map_cons, runValues, runValues, s.run_trimmed]
    dsimp only
    rw [ih]

/-! ### What happens on the way -/

/-- Whether an expression by itself sets a variable, writes a cell or draws a random number. -/
def Expr.acts : Expr → Bool
  | .assignVar _ _ | .assignCell _ _ _ | .call _ (some .rand) _ => true
  | _ => false

/-- Those visits at which something is set, written or drawn. -/
def acting (visits : List (Expr × Environment)) : List (Expr × Environment) :=
  visits.filter (·.1.acts)

/-- What a program sets, writes and draws, in order. -/
def Program.actions (p : Program) (env : Environment) : List (Expr × Environment) :=
  acting (p.visits env)

private theorem acting_append (vs ws : List (Expr × Environment)) :
    acting (vs ++ ws) = acting vs ++ acting ws :=
  List.filter_append vs ws

/-- Whether a node acts does not depend on its arguments. -/
private theorem Expr.acts_trimmed (e : Expr) : e.trimmed.acts = e.acts := by
  match e with
  | .call _ (some function) _ => cases function <;> rfl
  | .call _ none _ | .const _ | .var _ | .unary _ _ | .binary _ _ _ | .assignVar _ _
  | .assignCell _ _ _ | .assignNone _ _ => rfl

/-- A node acts if its trimmed form does; it remains to look at the visits after it. -/
private theorem acting_cons_trimmed {e : Expr} {env : Environment}
    {vs ws : List (Expr × Environment)}
    (h : acting ws = (acting vs).map (Prod.map Expr.trimmed id)) :
    acting ((e.trimmed, env) :: ws) =
      (acting ((e, env) :: vs)).map (Prod.map Expr.trimmed id) := by
  unfold acting at h ⊢
  rw [List.filter_cons, List.filter_cons]
  dsimp only
  rw [e.acts_trimmed]
  split
  · exact congrArg _ h
  · exact h

private theorem acting_append_trimmed {vs vs' ws ws' : List (Expr × Environment)}
    (hvs : acting vs' = (acting vs).map (Prod.map Expr.trimmed id))
    (hws : acting ws' = (acting ws).map (Prod.map Expr.trimmed id)) :
    acting (vs' ++ ws') = (acting (vs ++ ws)).map (Prod.map Expr.trimmed id) := by
  rw [acting_append, acting_append, List.map_append, hvs, hws]

private theorem acting_zeros (n : Nat) (env : Environment) :
    acting (visitsOfArgs n (List.replicate n .zero) env) = [] := by
  induction n with
  | zero => rfl
  | succ n ih => exact ih

/-- To fill in zeros is no action. -/
private theorem acting_padding {n : Nat} {args : List Expr} (h : args.length ≤ n)
    (env : Environment) :
    acting (visitsOfArgs n (args ++ List.replicate (n - args.length) .zero) env) =
      acting (visitsOfArgs n args env) := by
  induction args generalizing n env with
  | nil =>
    rw [List.nil_append, List.length_nil, Nat.sub_zero, acting_zeros]
    cases n <;> rfl
  | cons e es ih =>
    obtain ⟨n, rfl⟩ := Nat.exists_eq_add_of_le' (Nat.le_trans (Nat.le_add_left 1 _) h)
    rw [List.cons_append, List.length_cons, Nat.add_sub_add_right, visitsOfArgs, visitsOfArgs,
      acting_append, acting_append, ih (Nat.le_of_succ_le_succ h)]

private theorem Builtin.acting_padded (function : Builtin) {args : List Expr}
    (hargs : args.length ≤ maxArgs) (env : Environment) :
    acting (visitsOfArgs maxArgs (function.padded args) env) =
      acting (visitsOfArgs maxArgs args env) := by
  unfold Builtin.padded
  split
  · rfl
  · exact acting_padding hargs env

mutual

/-- Nothing is set, written or drawn in what is ignored. -/
theorem acting_trimmed (e : Expr) (env : Environment) :
    acting (visits e.trimmed env) = (acting (visits e env)).map (Prod.map Expr.trimmed id) := by
  match e with
  | .const _ | .var _ | .call _ none _ => rfl
  | .unary op e => exact acting_cons_trimmed (e := .unary op e) (acting_trimmed e env)
  | .binary op l r =>
    refine acting_cons_trimmed (e := .binary op l r) ?_
    refine acting_append_trimmed (acting_trimmed l env) ?_
    rw [eval_trimmed l]
    split
    · rfl
    · exact acting_trimmed r _
  | .call name (some function) args =>
    refine acting_cons_trimmed (e := .call name (some function) args) ?_
    -- the zeros that are filled in are visited but do nothing
    rw [function.acting_padded (length_trimmedArgs_le Builtin.maxArgs args)]
    exact acting_trimmedArgs Builtin.maxArgs args env
  | .assignVar name value =>
    exact acting_cons_trimmed (e := .assignVar name value) (acting_trimmed value env)
  | .assignCell bank first second =>
    refine acting_cons_trimmed (e := .assignCell bank first second) ?_
    refine acting_append_trimmed (acting_trimmed first env) ?_
    rw [eval_trimmed first]
    exact acting_trimmed second _
  | .assignNone first second =>
    refine acting_cons_trimmed (e := .assignNone first second) ?_
    refine acting_append_trimmed (acting_trimmed first env) ?_
    rw [eval_trimmed first]
    exact acting_trimmed second _

private theorem acting_trimmedArgs (n : Nat) (args : List Expr) (env : Environment) :
    acting (visitsOfArgs n (trimmedArgs n args) env) =
      (acting (visitsOfArgs n args env)).map (Prod.map Expr.trimmed id) := by
  match n, args with
  | 0, _ =>
    rw [trimmedArgs, visitsOfArgs, visitsOfArgs]
    rfl
  | n + 1, [] => rfl
  | n + 1, e :: es =>
    rw [trimmedArgs, visitsOfArgs, visitsOfArgs, eval_trimmed e]
    exact acting_append_trimmed (acting_trimmed e env) (acting_trimmedArgs n es _)

end

private theorem Statement.acting_trimmed (s : Statement) (env : Environment) :
    acting (s.trimmed.visits env) = (acting (s.visits env)).map (Prod.map Expr.trimmed id) := by
  cases s with
  | assign name value => exact Script.acting_trimmed (.assignVar name value) env
  | expr e => exact Script.acting_trimmed e env

/-- A program does the same without the arguments that are ignored. -/
theorem Program.actions_trimmed (p : Program) (env : Environment) :
    p.trimmed.actions env = (p.actions env).map (Prod.map Expr.trimmed id) := by
  unfold Program.actions Program.visits
  rw [p.statements_trimmed]
  generalize p.statements = statements
  induction statements generalizing env with
  | nil => rfl
  | cons s rest ih =>
    rw [List.map_cons, visitsOfAll, visitsOfAll, s.run_trimmed]
    exact acting_append_trimmed (s.acting_trimmed env) (ih _)

/-- **Ignored arguments have no effect.** A program without them gives the same value for every
statement and leaves the same environment, whatever it starts with; and on the way it sets, writes
and draws the same, in the same order and each time in the same environment. -/
theorem ignored_arguments (p : Program) (env : Environment) :
    runValues p.trimmed.statements env = runValues p.statements env ∧
      p.trimmed.run env = p.run env ∧
      p.trimmed.actions env = (p.actions env).map (Prod.map Expr.trimmed id) := by
  have hvalues : runValues p.trimmed.statements env = runValues p.statements env := by
    rw [p.statements_trimmed]
    exact runValues_trimmed p.statements env
  refine ⟨hvalues, ?_, p.actions_trimmed env⟩
  have hrun := congrArg Prod.snd hvalues
  rwa [runValues_snd, runValues_snd] at hrun

/-- What is cut need not be harmless: here the fourth argument would set `x`. -/
example (e : Expr) :
    (Expr.call "sin" (some .sin) [e, .call "f" none [e], .var "y", .assignVar "x" e]).trimmed =
      .call "sin" (some .sin) [e.trimmed, .zero, .var "y"] :=
  rfl

end PointScope.Script

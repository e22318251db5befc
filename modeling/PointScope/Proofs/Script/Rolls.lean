import PointScope.Proofs.Script.Effects

/-!
# Which draw a random number is

Every call of `rand` that is evaluated takes one draw from the stream, and nothing else does.
`rolls` lists the evaluated calls in the order in which they draw: from left to right, and a call
behind the calls among its arguments. A call that evaluation leaves out is not listed, whether the
left operand decides the value, it stands behind the third argument, or it is an argument of a
function that does not exist.

`Rolled` is what a list of rolls says about the environments before and after it: each roll finds
the stream with just the draws of the rolls before it gone, and all of them are gone in the end. It
is kept by appending lists (`Rolled.append`), so it holds of an expression because it holds of its
parts (`eval_rolled`), and then of programs.
-/

namespace PointScope

namespace Random.Stream

/-- The stream after further draws. -/
def skip (s : Stream) (n : Nat) : Stream := { s with drawn := s.drawn + n }

private theorem skip_skip (s : Stream) (m n : Nat) : (s.skip m).skip n = s.skip (m + n) :=
  congrArg (fun k => { s with drawn := k }) (Nat.add_assoc s.drawn m n)

end Random.Stream

namespace Script

/-! ### Rolls -/

/-- An evaluated call of `rand`: the values of its arguments, and the environment that it finds. -/
structure Roll where
  args : List Float
  environment : Environment

/-- The random number that a roll gives. -/
def Roll.value (r : Roll) : Float := (Builtin.rand.apply r.args r.environment).1

mutual

/-- The calls of `rand` that the evaluation of an expression evaluates, in order. -/
def rolls : Expr → Environment → List Roll
  | .const _, _ => []
  | .var _, _ => []
  | .unary _ e, env => rolls e env
  | .binary op l r, env =>
    rolls l env ++
      match op.decided? (eval l env).1 with
      | some _ => []
      | none => rolls r (eval l env).2
  | .call _ none _, _ => []
  | .call _ (some function) args, env =>
    let (values, env') := evalArgs Builtin.maxArgs args env
    rollsOfArgs Builtin.maxArgs args env ++ if function = .rand then [⟨values, env'⟩] else []
  | .assignVar _ value, env => rolls value env
  | .assignCell _ index value, env => rolls index env ++ rolls value (eval index env).2
  | .assignNone target value, env => rolls target env ++ rolls value (eval target env).2

/-- The rolls of the first `n` arguments. -/
def rollsOfArgs : Nat → List Expr → Environment → List Roll
  | 0, _, _ => []
  | _, [], _ => []
  | n + 1, e :: es, env => rolls e env ++ rollsOfArgs n es (eval e env).2

end

/-- The rolls of a statement. -/
def Statement.rolls : Statement → Environment → List Roll
  | .assign _ value => Script.rolls value
  | .expr e => Script.rolls e

/-- The rolls of statements in order. -/
def rollsOfAll : List Statement → Environment → List Roll
  | [], _ => []
  | s :: rest, env => s.rolls env ++ rollsOfAll rest (s.run env).2

/-- The rolls of a program. -/
def Program.rolls (p : Program) (env : Environment) : List Roll := rollsOfAll p.statements env

/-! ### Rolls one after another -/

/-- Between two environments there were just these rolls: each found the stream without the draws of
those before it, and the second environment has the stream without the draws of all. -/
structure Rolled (env : Environment) (rs : List Roll) (env' : Environment) : Prop where
  found : rs.map (·.environment.random) = (List.range rs.length).map env.random.skip
  left : env'.random = env.random.skip rs.length

section Rolled

variable {env env' env'' : Environment}

/-- What leaves the stream alone is no roll. -/
theorem Rolled.of_random (h : env'.random = env.random) : Rolled env [] env' := ⟨rfl, h⟩

/-- Rolls behind other rolls. -/
theorem Rolled.append {rs rs' : List Roll} (h : Rolled env rs env') (h' : Rolled env' rs' env'') :
    Rolled env (rs ++ rs') env'' where
  found := by
    have hlater : (List.range rs'.length).map env'.random.skip =
        ((List.range rs'.length).map (rs.length + ·)).map env.random.skip := by
      rw [h.left, List.map_map]
      exact List.map_congr_left fun k _ => env.random.skip_skip rs.length k
    rw [List.map_append, h.found, h'.found, hlater, List.length_append, List.range_add,
      List.map_append]
  left := by
    rw [h'.left, h.left, Random.Stream.skip_skip, List.length_append]

/-- Each roll stretches the draw behind those of the rolls before it. -/
theorem Rolled.values {rs : List Roll} (h : Rolled env rs env') :
    rs.map Roll.value = rs.mapIdx fun k r =>
      stretch (Random.Stream.drawAt env.random.key (env.random.drawn + k)) r.args := by
  refine List.ext_getElem (by simp) fun k hk _ => ?_
  rw [List.length_map] at hk
  have hfound : rs[k].environment.random = env.random.skip k := by
    have hat := congrArg (·[k]?) h.found
    simpa [hk] using hat
  rw [List.getElem_map, List.getElem_mapIdx]
  exact congrArg (fun random => stretch random.draw.1 rs[k].args) hfound

/-- A step that leaves the stream alone may come first. -/
theorem Rolled.of_random_trans {rs : List Roll} (h : env'.random = env.random)
    (h' : Rolled env' rs env'') : Rolled env rs env'' := (Rolled.of_random h).append h'

/-- A step that leaves the stream alone may come last. -/
theorem Rolled.trans_random {rs : List Roll} (h : Rolled env rs env')
    (h' : env''.random = env'.random) : Rolled env rs env'' :=
  List.append_nil rs ▸ h.append (.of_random h')

/-- A call of `rand` is one roll, whatever its arguments. -/
theorem Builtin.apply_rolled (f : Builtin) (args : List Float) (env : Environment) :
    Rolled env (if f = .rand then [⟨args, env⟩] else []) (f.apply args env).2 := by
  by_cases hf : f = .rand
  · subst hf
    exact ⟨rfl, rfl⟩
  · rw [if_neg hf]
    exact .of_random (Builtin.apply_random hf args env)

mutual

/-- **The evaluation of an expression** draws once for every roll, in order, and no more. -/
theorem eval_rolled (e : Expr) (env : Environment) : Rolled env (rolls e env) (eval e env).2 := by
  match e with
  | .const _ | .var _ | .call _ none _ => exact .of_random rfl
  | .unary op e => exact eval_rolled e env
  | .binary op l r =>
    rw [rolls, eval_binary]
    cases op.decided? (eval l env).1 with
    | some v => exact (eval_rolled l env).append (.of_random rfl)
    | none => exact (eval_rolled l env).append (eval_rolled r _)
  | .call name (some function) args =>
    exact (evalArgs_rolled Builtin.maxArgs args env).append (function.apply_rolled _ _)
  | .assignVar name value => exact (eval_rolled value env).trans_random rfl
  | .assignCell bank index value =>
    have hparts := (eval_rolled index env).append (eval_rolled value _)
    exact hparts.trans_random (Environment.writeCell_eq _ bank _ _).2
  | .assignNone target value => exact (eval_rolled target env).append (eval_rolled value _)

private theorem evalArgs_rolled (n : Nat) (args : List Expr) (env : Environment) :
    Rolled env (rollsOfArgs n args env) (evalArgs n args env).2 := by
  match n, args with
  | 0, _ =>
    rw [rollsOfArgs, evalArgs]
    exact .of_random rfl
  | n + 1, [] => exact .of_random rfl
  | n + 1, e :: es => exact (eval_rolled e env).append (evalArgs_rolled n es _)

end

/-- A statement draws once for every roll, in order, and no more. -/
theorem Statement.run_rolled (s : Statement) (env : Environment) :
    Rolled env (s.rolls env) (s.run env).2 := by
  cases s with
  | assign name value => exact (eval_rolled value env).trans_random rfl
  | expr e => exact eval_rolled e env

/-- A program draws once for every roll, in order, and no more. -/
theorem Program.run_rolled (p : Program) (env : Environment) :
    Rolled env (p.rolls env) (p.run env) := by
  unfold Program.rolls Program.run runAll
  generalize p.statements = statements
  induction statements generalizing env with
  | nil => exact .of_random rfl
  | cons s rest ih => exact (s.run_rolled env).append (ih (s.run env).2)

end Rolled

/-! ### Calls that evaluation leaves out -/

/-- Arguments behind the first `n` are neither evaluated nor rolled. -/
theorem evalArgs_append {n : Nat} {args : List Expr} (h : n ≤ args.length) (extra : List Expr)
    (env : Environment) : evalArgs n (args ++ extra) env = evalArgs n args env ∧
      rollsOfArgs n (args ++ extra) env = rollsOfArgs n args env := by
  induction n generalizing args env with
  | zero => exact ⟨by rw [evalArgs, evalArgs], by rw [rollsOfArgs, rollsOfArgs]⟩
  | succ n ih =>
    cases args with
    | nil => exact absurd h (Nat.not_succ_le_zero n)
    | cons e rest =>
      obtain ⟨heval, hrolls⟩ := ih (Nat.le_of_succ_le_succ h) (eval e env).2
      rw [List.cons_append, evalArgs, evalArgs, rollsOfArgs, rollsOfArgs]
      dsimp only
      rw [heval, hrolls]
      exact ⟨rfl, rfl⟩

/-- Calls of `rand` behind the third argument are not rolled. -/
theorem rolls_call_append {args : List Expr} (h : Builtin.maxArgs ≤ args.length)
    (extra : List Expr) (name : String) (function : Option Builtin) (env : Environment) :
    rolls (.call name function (args ++ extra)) env = rolls (.call name function args) env := by
  cases function with
  | none => rfl
  | some f =>
    obtain ⟨heval, hrolls⟩ := evalArgs_append h extra env
    rw [rolls, rolls, heval, hrolls]

end Script

end PointScope

import PointScope.Proofs.Runs
import PointScope.Proofs.Script.Trees

/-!
# Updates of variables

A host names variables in any letter case, and the environment folds the name. A script names them
as it was compiled, and nothing folds the name again. An `Update` is what either of them does to the
variables of an environment, and a history of updates says what these are: every name that was set
since the last time that all were forgotten, in small letters, with the value that it was last set
to (`Holds.foldl_apply`).

`updates` lists the assignments that an evaluation carries out, in order; the value that is assigned
is evaluated first, and so are the assignments inside it. `Updated` is what a list of updates says
about the environments before and after it. For a program it relies on compiled names being stored
as they are (`Program.run_updated`): a name with a capital letter would make an entry of its own,
which no host could find. Only for this reason do scripts and hosts have one map of variables in
common (`OneMap`).
-/

namespace PointScope.Script

/-! ### Histories of updates -/

/-- What happens to variables: all are forgotten, or one is set, by a name in any letter case. -/
inductive Update where
  | clear
  | set (name : String) (value : Float)

namespace Update

/-- Whether an update forgets all variables. -/
def clears : Update → Bool
  | .clear => true
  | .set _ _ => false

/-- What an update sets, by the name in small letters. -/
def entry? : Update → Option (String × Float)
  | .clear => none
  | .set name value => some (Text.fold name, value)

/-- The variables after an update. -/
def apply (v : Variables) : Update → Variables
  | .clear => .empty
  | .set name value => v.set (Text.fold name) value

end Update

/-- What was set since all variables were last forgotten, by names in small letters. -/
def entriesSince (us : List Update) : List (String × Float) :=
  (since Update.clears us).filterMap Update.entry?

/-- The value that a variable was last set to under any spelling of its name, unless it was
forgotten since. -/
def lastSet? (us : List Update) (name : String) : Option Float :=
  (entriesSince us).reverse.lookup (Text.fold name)

/-- The names that were set since all variables were last forgotten, in small letters. -/
def setNames (us : List Update) : Finset String := ((entriesSince us).map Prod.fst).toFinset

/-- There is a variable for every name among the entries and for no other, and its value is that of
the last entry. -/
def Holds (v : Variables) (entries : List (String × Float)) : Prop :=
  ∀ key, v.get? key = entries.reverse.lookup key

section Holds

variable {v : Variables} {entries : List (String × Float)}

theorem Holds.empty : Holds .empty [] := Variables.get?_empty

/-- Setting a variable is one more entry. -/
theorem Holds.set (h : Holds v entries) (entry : String × Float) :
    Holds (v.set entry.1 entry.2) (entries ++ [entry]) := by
  intro key
  rw [Variables.get?_set, List.reverse_append, List.reverse_singleton, List.singleton_append,
    List.lookup_cons, h key]
  by_cases hkey : entry.1 = key
  · rw [if_pos hkey, beq_iff_eq.mpr hkey.symm]
  · rw [if_neg hkey, beq_false_of_ne (Ne.symm hkey)]

/-- **A history says what the variables are.** -/
theorem Holds.foldl_apply (us : List Update) : Holds (us.foldl Update.apply .empty)
    (entriesSince us) := by
  refine foldl_since (P := fun past v => Holds v (past.filterMap Update.entry?)) .empty ?_ ?_ us
  · intro _ v u hu _
    cases u with
    | clear => exact .empty
    | set => cases hu
  · intro past v u hu h
    cases u with
    | clear => cases hu
    | set name value =>
      rw [List.filterMap_append]
      exact h.set (Text.fold name, value)

/-- A variable is set if there is an entry for it. -/
theorem Holds.isSome_iff (h : Holds v entries) (key : String) :
    (v.get? key).isSome ↔ key ∈ entries.map Prod.fst := by
  simp only [h key, List.lookup_isSome_iff, List.mem_reverse, beq_iff_eq, List.mem_map]
  exact exists_congr fun entry => and_congr_right fun _ => eq_comm

/-- There are as many variables as different names. -/
theorem Holds.size (h : Holds v entries) : v.size = (entries.map Prod.fst).toFinset.card := by
  have hkeys : v.values.keys.toFinset = (entries.map Prod.fst).toFinset := by
    ext key
    rw [List.mem_toFinset, List.mem_toFinset, ← h.isSome_iff, Std.ExtTreeMap.mem_keys,
      Variables.get?, Std.ExtTreeMap.isSome_getElem?_iff_mem]
  rw [← hkeys, List.toFinset_card_of_nodup Std.ExtTreeMap.nodup_keys, Std.ExtTreeMap.length_keys]
  rfl

end Holds

/-! ### Names without capital letters -/

/-- No variable is stored by a name with a capital letter. -/
def Variables.NoCapitals (v : Variables) : Prop :=
  ∀ key, (v.get? key).isSome → ∀ c ∈ key.toList, c.isUpper = false

theorem Variables.empty_noCapitals : Variables.empty.NoCapitals := by
  intro key hkey
  rw [Variables.get?_empty] at hkey
  cases hkey

/-- Setting a variable under a name in small letters brings in no capital ones. -/
theorem Variables.NoCapitals.set {v : Variables} {name : String}
    (hname : ∀ c ∈ name.toList, c.isUpper = false) (value : Float) (h : v.NoCapitals) :
    (v.set name value).NoCapitals := by
  intro key hkey
  rw [Variables.get?_set] at hkey
  split at hkey
  · rename_i heq
    exact heq ▸ hname
  · exact h key hkey

private theorem Update.apply_noCapitals {v : Variables} (h : v.NoCapitals) (u : Update) :
    (u.apply v).NoCapitals := by
  cases u with
  | clear => exact Variables.empty_noCapitals
  | set name value => exact h.set (Text.isUpper_eq_false (Text.fold_fold name)) value

/-! ### Updates one after another -/

/-- The updates lead from the variables of the first environment to those of the second. -/
def Updated (env : Environment) (us : List Update) (env' : Environment) : Prop :=
  env'.vars = us.foldl Update.apply env.vars

section Updated

variable {env env' env'' : Environment} {us us' : List Update}

/-- What leaves the variables alone is no update. -/
theorem Updated.of_vars (h : env'.vars = env.vars) : Updated env [] env' := h

/-- Updates behind other updates. -/
theorem Updated.append (h : Updated env us env') (h' : Updated env' us' env'') :
    Updated env (us ++ us') env'' := by
  rw [Updated, List.foldl_append, ← h]
  exact h'

/-- A step that leaves the variables alone may come last. -/
private theorem Updated.trans_vars (h : Updated env us env') (h' : env''.vars = env'.vars) :
    Updated env us env'' := h'.trans h

/-- Updates make no name with a capital letter. -/
theorem Updated.noCapitals (h : Updated env us env') (henv : env.vars.NoCapitals) :
    env'.vars.NoCapitals := by
  rw [h]
  exact List.foldlRecOn us _ henv fun v hv u _ => u.apply_noCapitals hv

/-- A script sets the variable that a host sets, if it names the variable in small letters. -/
theorem Updated.write {name : String} (hname : Text.fold name = name) (env : Environment)
    (value : Float) : Updated env [.set name value] (env.write name value) := by
  rw [Updated, List.foldl_cons, List.foldl_nil, Update.apply, hname]
  rfl

/-- A host sets a variable by a name in any letter case. -/
theorem Updated.set (env : Environment) (name : String) (value : Float) :
    Updated env [.set name value] (env.set name value) := rfl

/-- Several variables that are set one after another. -/
theorem Updated.foldl_write {entries : List (String × Float)}
    (h : ∀ name ∈ entries.map Prod.fst, Text.fold name = name) (env : Environment) :
    Updated env (entries.map fun entry => .set entry.1 entry.2)
      (entries.foldl (fun env (name, value) => env.write name value) env) := by
  induction entries generalizing env with
  | nil => exact .of_vars rfl
  | cons entry rest ih =>
    obtain ⟨hname, hrest⟩ := List.forall_mem_cons.mp h
    exact (Updated.write hname env entry.2).append (ih hrest _)

end Updated

/-! ### Updates by scripts -/

mutual

/-- The assignments to variables that the evaluation of an expression carries out, in order. -/
def updates : Expr → Environment → List Update
  | .const _, _ => []
  | .var _, _ => []
  | .unary _ e, env => updates e env
  | .binary op l r, env =>
    updates l env ++
      match op.decided? (eval l env).1 with
      | some _ => []
      | none => updates r (eval l env).2
  | .call _ none _, _ => []
  | .call _ (some _) args, env => updatesOfArgs Builtin.maxArgs args env
  | .assignVar name value, env => updates value env ++ [.set name (eval value env).1]
  | .assignCell _ index value, env => updates index env ++ updates value (eval index env).2
  | .assignNone target value, env => updates target env ++ updates value (eval target env).2

/-- The assignments in the first `n` arguments. -/
def updatesOfArgs : Nat → List Expr → Environment → List Update
  | 0, _, _ => []
  | _, [], _ => []
  | n + 1, e :: es, env => updates e env ++ updatesOfArgs n es (eval e env).2

end

/-- The assignments of a statement; to set a variable is the same as to assign to it. -/
def Statement.updates : Statement → Environment → List Update
  | .assign name value => Script.updates (.assignVar name value)
  | .expr e => Script.updates e

/-- The assignments of statements in order. -/
def updatesOfAll : List Statement → Environment → List Update
  | [], _ => []
  | s :: rest, env => s.updates env ++ updatesOfAll rest (s.run env).2

/-- The assignments of a program. -/
def Program.updates (p : Program) (env : Environment) : List Update :=
  updatesOfAll p.statements env

section Scripts

mutual

/-- **The evaluation of an expression** does to the variables what its assignments do, in order. -/
theorem eval_updated (e : Expr) (h : ∀ node ∈ e.nodes, node.Proper) (env : Environment) :
    Updated env (updates e env) (eval e env).2 := by
  match e with
  | .const _ | .var _ | .call _ none _ => exact .of_vars rfl
  | .unary op e => exact eval_updated e (List.forall_mem_cons.mp h).2 env
  | .binary op l r =>
    obtain ⟨-, hparts⟩ := List.forall_mem_cons.mp h
    obtain ⟨hl, hr⟩ := List.forall_mem_append.mp hparts
    rw [updates, eval_binary]
    -- an operand that is left out updates nothing
    cases op.decided? (eval l env).1 with
    | some v => exact (eval_updated l hl env).append (.of_vars rfl)
    | none => exact (eval_updated l hl env).append (eval_updated r hr _)
  | .call name (some function) args =>
    obtain ⟨-, hargs⟩ := List.forall_mem_cons.mp h
    exact (evalArgs_updated Builtin.maxArgs args hargs env).trans_vars (function.apply_vars _ _)
  | .assignVar name value =>
    obtain ⟨hname, hvalue⟩ := List.forall_mem_cons.mp h
    exact (eval_updated value hvalue env).append (.write (IsStoredName.folded hname) _ _)
  | .assignCell bank index value =>
    obtain ⟨-, hparts⟩ := List.forall_mem_cons.mp h
    obtain ⟨hindex, hvalue⟩ := List.forall_mem_append.mp hparts
    have hboth := (eval_updated index hindex env).append (eval_updated value hvalue _)
    exact hboth.trans_vars (Environment.writeCell_eq _ bank _ _).1
  | .assignNone target value =>
    obtain ⟨-, hparts⟩ := List.forall_mem_cons.mp h
    obtain ⟨htarget, hvalue⟩ := List.forall_mem_append.mp hparts
    exact (eval_updated target htarget env).append (eval_updated value hvalue _)

private theorem evalArgs_updated (n : Nat) (args : List Expr)
    (h : ∀ node ∈ nodesOfArgs args, node.Proper)
    (env : Environment) : Updated env (updatesOfArgs n args env) (evalArgs n args env).2 := by
  match n, args with
  | 0, _ =>
    rw [updatesOfArgs, evalArgs]
    exact .of_vars rfl
  | n + 1, [] => exact .of_vars rfl
  | n + 1, e :: es =>
    obtain ⟨he, hes⟩ := List.forall_mem_append.mp h
    exact (eval_updated e he env).append (evalArgs_updated n es hes _)

end

/-- A statement does to the variables what its assignments do, in order. -/
theorem Statement.run_updated (s : Statement) (h : ∀ node ∈ s.nodes, node.Proper)
    (env : Environment) : Updated env (s.updates env) (s.run env).2 := by
  cases s with
  | assign name value => exact eval_updated (.assignVar name value) h env
  | expr e => exact eval_updated e h env

/-- A program does to the variables what its assignments do, in order. -/
theorem Program.run_updated (p : Program) (h : ∀ node ∈ p.nodes, node.Proper)
    (env : Environment) : Updated env (p.updates env) (p.run env) := by
  unfold Program.updates Program.run runAll
  unfold Program.nodes at h
  generalize p.statements = statements at h ⊢
  induction statements generalizing env with
  | nil => exact .of_vars rfl
  | cons s rest ih =>
    obtain ⟨hs, hrest⟩ := List.forall_mem_append.mp h
    exact (s.run_updated hs env).append (ih (s.run env).2 hrest)

end Scripts

/-! ### One map -/

/-- Whoever looks at the variables, in whichever letter case, sees what the updates say. -/
structure OneMap (env : Environment) (us : List Update) : Prop where
  noCapitals : env.vars.NoCapitals
  get? : ∀ name, env.get? name = lastSet? us name
  get : ∀ name default, env.get name default = (lastSet? us name).getD default
  contains : ∀ name, env.contains name = (lastSet? us name).isSome
  read : ∀ name, env.read (Text.fold name) = (lastSet? us name).getD 0
  size : env.vars.size = (setNames us).card

/-- Where a script reads or sets a variable, it is the one that a host reads or sets by the same
name in any letter case. -/
def Expr.SharesName : Expr → Environment → Prop
  | .var stored, env => ∀ name, Text.fold name = Text.fold stored → env.read stored = env.get name 0
  | .assignVar stored _, env => ∀ name value, Text.fold name = Text.fold stored →
    env.write stored value = env.set name value
  | _, _ => True

/-- A program shares its variables with the host from when it starts until it ends. -/
structure Program.SharesNames (p : Program) (env : Environment) : Prop where
  starts : env.vars.NoCapitals
  visits : ∀ visit ∈ p.visits env, visit.2.vars.NoCapitals ∧ visit.1.SharesName visit.2
  ends : (p.run env).vars.NoCapitals

section OneMap

variable {env : Environment}

/-- The updates since there were no variables make one map. -/
theorem Updated.oneMap {start : Environment} {us : List Update} (hstart : start.vars = .empty)
    (h : Updated start us env) : OneMap env us := by
  have hholds : Holds env.vars (entriesSince us) := by
    rw [h, hstart]
    exact .foldl_apply us
  have hget : ∀ name, env.get? name = lastSet? us name := fun name => hholds (Text.fold name)
  constructor
  · exact h.noCapitals (hstart ▸ Variables.empty_noCapitals)
  · exact hget
  · intro name default
    rw [Environment.get, hget]
  · intro name
    rw [Environment.contains, hget]
  · intro name
    rw [← hget]
    rfl
  · exact hholds.size

/-- A proper node makes no name with a capital letter. -/
theorem Expr.Proper.keeps_noCapitals {node : Expr} (h : node.Proper) :
    node.Keeps (·.vars.NoCapitals) := by
  match node with
  | .assignVar name _ => exact fun env value hvars => hvars.set h.2 value
  | .assignCell bank _ _ =>
    intro env address value hvars
    rwa [(env.writeCell_eq bank address value).1]
  | .call _ (some f) _ =>
    intro args env hvars
    rwa [f.apply_vars]
  | .call _ none _ | .const _ | .var _ | .unary _ _ | .binary _ _ _ | .assignNone _ _ => trivial

private theorem Expr.Proper.sharesName {node : Expr} (h : node.Proper) (env : Environment) :
    node.SharesName env := by
  have hserves := h.serves env
  cases node with
  | var stored =>
    intro name hname
    rw [Environment.get, Environment.get?, hname]
    exact hserves
  | assignVar stored value =>
    intro name value hname
    rw [Environment.set, hname]
    exact hserves value
  | const | unary | binary | call | assignCell | assignNone => trivial

/-- A program of proper nodes shares its variables if it finds no name with a capital letter. -/
theorem Program.sharesNames {p : Program} (h : ∀ node ∈ p.nodes, node.Proper)
    (henv : env.vars.NoCapitals) : p.SharesNames env := by
  have hkeeps : ∀ node ∈ p.nodes, node.Keeps (·.vars.NoCapitals) :=
    fun node hnode => (h node hnode).keeps_noCapitals
  refine ⟨henv, fun visit hvisit => ⟨p.visits_keep hkeeps henv visit hvisit, ?_⟩,
    p.run_keeps hkeeps henv⟩
  exact (h _ (p.mem_nodes_of_mem_visits env visit hvisit)).sharesName _

end OneMap

/-! ### Environments without a scope -/

/-- What a host does with an environment of its own; a script is compiled before it is run. -/
inductive Environment.Action where
  | get (name : String) (default : Float)
  | set (name : String) (value : Float)
  | contains (name : String)
  | clearVariables
  | run (source : String)

namespace Environment

/-- The environment after an action; to ask for a variable leaves everything as it is. -/
def act (env : Environment) : Action → Environment
  | .get _ _ | .contains _ => env
  | .set name value => env.set name value
  | .clearVariables => env.clearVariables
  | .run source => (compile source).program.run env

/-- The environment after actions in order. -/
def actAll (env : Environment) (actions : List Action) : Environment := actions.foldl act env

/-- What an action does to the variables. -/
def updates (env : Environment) : Action → List Update
  | .get _ _ | .contains _ => []
  | .set name value => [.set name value]
  | .clearVariables => [.clear]
  | .run source => (compile source).program.updates env

/-- What actions do to the variables, in order. -/
def updatesOfRun (env : Environment) : List Action → List Update
  | [] => []
  | action :: rest => env.updates action ++ (env.act action).updatesOfRun rest

theorem act_updated (env : Environment) (action : Action) :
    Updated env (env.updates action) (env.act action) := by
  cases action with
  | get | contains | clearVariables => rfl
  | set name value => exact .set env name value
  | run source => exact Program.run_updated _ (compile_proper source).1 env

/-- **A run of an environment** does to the variables what its updates do, in order. -/
theorem actAll_updated (env : Environment) (actions : List Action) :
    Updated env (env.updatesOfRun actions) (env.actAll actions) := by
  induction actions generalizing env with
  | nil => exact .of_vars rfl
  | cons action rest ih => exact (env.act_updated action).append (ih (env.act action))

end Environment

end PointScope.Script

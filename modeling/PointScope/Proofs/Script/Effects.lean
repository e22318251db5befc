import Mathlib.Logic.Basic
import PointScope.Script.Evaluation

/-!
# What scripts change

Evaluation changes an environment in three ways only: an assignment sets a variable, an assignment
to a cell writes a memory, and a call of a function may draw a random number. So whatever the nodes
of an expression respect, its evaluation respects: if every node by itself leaves related
environments related, with the same value, then so does the whole expression (`eval_respects`), and
likewise statements and programs. Three laws are cases of it. A property that every node keeps is
kept (`eval_keeps`), what no node changes is unchanged (`eval_leaves`), and a script changes only
what it names (`changes_only`).
-/

namespace PointScope.Script

/-! ### Nodes -/

mutual

/-- An expression and all expressions in it. -/
def Expr.nodes : Expr → List Expr
  | .const value => [.const value]
  | .var name => [.var name]
  | .unary op e => .unary op e :: e.nodes
  | .binary op l r => .binary op l r :: (l.nodes ++ r.nodes)
  | .call name function args => .call name function args :: nodesOfArgs args
  | .assignVar name value => .assignVar name value :: value.nodes
  | .assignCell bank index value => .assignCell bank index value :: (index.nodes ++ value.nodes)
  | .assignNone target value => .assignNone target value :: (target.nodes ++ value.nodes)

/-- All expressions in some arguments. -/
def nodesOfArgs : List Expr → List Expr
  | [] => []
  | e :: es => e.nodes ++ nodesOfArgs es

end

/-- The nodes of a statement; to set a variable is the same as to assign to it. -/
def Statement.nodes : Statement → List Expr
  | .assign name value => (Expr.assignVar name value).nodes
  | .expr e => e.nodes

/-- The nodes of a program. -/
def Program.nodes (p : Program) : List Expr := p.statements.flatMap Statement.nodes

/-! ### Operators -/

/-- The value that the left operand of an operator decides by itself, if it decides it. -/
def Operator.decided? : Operator → Float → Option Float
  | .and, a => if a == 0 then some 0 else none
  | .or, a => if a != 0 then some 1 else none
  | _, _ => none

/-- The value of two operands of which the left one does not decide it. -/
def Operator.combine : Operator → Float → Float → Float
  | .and, _, b | .or, _, b => truth (b != 0)
  | op, a, b => op.apply a b

/-- All operators are evaluated in one way: behind the left operand if it decides the value, and
otherwise behind both. -/
theorem eval_binary (op : Operator) (l r : Expr) (env : Environment) :
    eval (.binary op l r) env =
      match op.decided? (eval l env).1 with
      | some v => (v, (eval l env).2)
      | none =>
        (op.combine (eval l env).1 (eval r (eval l env).2).1, (eval r (eval l env).2).2) := by
  cases op with
  | and | or =>
    rw [eval, Operator.decided?]
    dsimp only
    split <;> rfl
  | _ => rfl

/-! ### Two environments side by side -/

section Respects

variable (R : Environment → Environment → Prop)

/-- Two outcomes with the same result that leave related environments. -/
def Alike {α : Type} (x y : α × Environment) : Prop := x.1 = y.1 ∧ R x.2 y.2

/-- What a node does by itself, apart from its parts, it does alike in related environments. -/
def Expr.Respects : Expr → Prop
  | .var name => ∀ env env', R env env' → env.read name = env'.read name
  | .assignVar name _ =>
    ∀ env env' value, R env env' → R (env.write name value) (env'.write name value)
  | .assignCell bank _ _ => ∀ env env' address value, R env env' →
    R (env.writeCell bank address value) (env'.writeCell bank address value)
  | .call _ (some function) _ =>
    ∀ args env env', R env env' → Alike R (function.apply args env) (function.apply args env')
  | _ => True

variable {R}

mutual

/-- **What all nodes of an expression do alike** in related environments, the expression does. -/
theorem eval_respects (e : Expr) (h : ∀ node ∈ e.nodes, node.Respects R) {env env' : Environment}
    (hR : R env env') : Alike R (eval e env) (eval e env') := by
  match e with
  | .const value => exact ⟨rfl, hR⟩
  | .var name => exact ⟨h _ List.mem_cons_self env env' hR, hR⟩
  | .unary op e =>
    obtain ⟨-, he⟩ := List.forall_mem_cons.mp h
    obtain ⟨hvalue, hafter⟩ := eval_respects e he hR
    exact ⟨congrArg op.apply hvalue, hafter⟩
  | .binary op l r =>
    obtain ⟨-, hparts⟩ := List.forall_mem_cons.mp h
    obtain ⟨hl, hr⟩ := List.forall_mem_append.mp hparts
    obtain ⟨hleft, hmiddle⟩ := eval_respects l hl hR
    obtain ⟨hright, hafter⟩ := eval_respects r hr hmiddle
    rw [eval_binary, eval_binary, ← hleft, ← hright]
    -- either way the left operand decides the value, or neither way
    split
    · exact ⟨rfl, hmiddle⟩
    · exact ⟨rfl, hafter⟩
  | .call name none args => exact ⟨rfl, hR⟩
  | .call name (some function) args =>
    obtain ⟨hnode, hargs⟩ := List.forall_mem_cons.mp h
    obtain ⟨hvalues, hafter⟩ := evalArgs_respects Builtin.maxArgs args hargs hR
    rw [eval, eval]
    dsimp only
    rw [hvalues]
    exact hnode _ _ _ hafter
  | .assignVar name value =>
    obtain ⟨hnode, hvalue⟩ := List.forall_mem_cons.mp h
    obtain ⟨hresult, hafter⟩ := eval_respects value hvalue hR
    rw [eval, eval]
    dsimp only
    rw [hresult]
    exact ⟨rfl, hnode _ _ _ hafter⟩
  | .assignCell bank index value =>
    obtain ⟨hnode, hparts⟩ := List.forall_mem_cons.mp h
    obtain ⟨hindex, hvalue⟩ := List.forall_mem_append.mp hparts
    obtain ⟨haddress, hmiddle⟩ := eval_respects index hindex hR
    obtain ⟨hresult, hafter⟩ := eval_respects value hvalue hmiddle
    rw [eval, eval]
    dsimp only
    rw [haddress, hresult]
    exact ⟨rfl, hnode _ _ _ _ hafter⟩
  | .assignNone target value =>
    obtain ⟨-, hparts⟩ := List.forall_mem_cons.mp h
    obtain ⟨htarget, hvalue⟩ := List.forall_mem_append.mp hparts
    exact eval_respects value hvalue (eval_respects target htarget hR).2

private theorem evalArgs_respects (n : Nat) (args : List Expr)
    (h : ∀ node ∈ nodesOfArgs args, node.Respects R) {env env' : Environment} (hR : R env env') :
    Alike R (evalArgs n args env) (evalArgs n args env') := by
  match n, args with
  | 0, _ =>
    rw [evalArgs, evalArgs]
    exact ⟨rfl, hR⟩
  | n + 1, [] => exact ⟨rfl, hR⟩
  | n + 1, e :: es =>
    obtain ⟨he, hes⟩ := List.forall_mem_append.mp h
    obtain ⟨hvalue, hmiddle⟩ := eval_respects e he hR
    obtain ⟨hvalues, hafter⟩ := evalArgs_respects n es hes hmiddle
    exact ⟨congrArg₂ _ hvalue hvalues, hafter⟩

end

/-- A statement does what the nodes in it do. -/
theorem Statement.run_respects (s : Statement) (h : ∀ node ∈ s.nodes, node.Respects R)
    {env env' : Environment} (hR : R env env') : Alike R (s.run env) (s.run env') := by
  cases s with
  | assign name value => exact eval_respects (.assignVar name value) h hR
  | expr e => exact eval_respects e h hR

theorem runValues_respects (statements : List Statement)
    (h : ∀ node ∈ statements.flatMap Statement.nodes, node.Respects R) {env env' : Environment}
    (hR : R env env') : Alike R (runValues statements env) (runValues statements env') := by
  induction statements generalizing env env' with
  | nil => exact ⟨rfl, hR⟩
  | cons s rest ih =>
    obtain ⟨hs, hrest⟩ := List.forall_mem_append.mp h
    obtain ⟨hvalue, hmiddle⟩ := s.run_respects hs hR
    obtain ⟨hvalues, hafter⟩ := ih hrest hmiddle
    exact ⟨congrArg₂ _ hvalue hvalues, hafter⟩

/-- Keeping the values of statements makes no difference to what they do. -/
theorem runValues_snd (statements : List Statement) (env : Environment) :
    (runValues statements env).2 = runAll statements env := by
  induction statements generalizing env with
  | nil => rfl
  | cons s rest ih => exact ih (s.run env).2

/-- **What all nodes of a program respect** a run of it does. -/
theorem Program.run_respects (p : Program) (h : ∀ node ∈ p.nodes, node.Respects R)
    {env env' : Environment} (hR : R env env') : R (p.run env) (p.run env') := by
  rw [Program.run, Program.run, ← runValues_snd, ← runValues_snd]
  exact (runValues_respects p.statements h hR).2

end Respects

/-! ### Properties of an environment -/

section Keeps

variable (P : Environment → Prop)

/-- What a node does by itself, apart from its parts, keeps the property. -/
def Expr.Keeps : Expr → Prop
  | .assignVar name _ => ∀ env value, P env → P (env.write name value)
  | .assignCell bank _ _ => ∀ env address value, P env → P (env.writeCell bank address value)
  | .call _ (some function) _ => ∀ args env, P env → P (function.apply args env).2
  | _ => True

variable {P}

/-- A run is two runs from one environment. -/
theorem Expr.Keeps.respects {node : Expr} (h : node.Keeps P) :
    node.Respects fun env env' => env = env' ∧ P env := by
  -- only the nodes that change the environment ask for the invariant
  match node with
  | .var _ =>
    rintro env _ ⟨rfl, -⟩
    rfl
  | .assignVar _ _ =>
    rintro env _ value ⟨rfl, hP⟩
    exact ⟨rfl, h env value hP⟩
  | .assignCell _ _ _ =>
    rintro env _ address value ⟨rfl, hP⟩
    exact ⟨rfl, h env address value hP⟩
  | .call _ (some _) _ =>
    rintro args env _ ⟨rfl, hP⟩
    exact ⟨rfl, rfl, h args env hP⟩
  | .call _ none _ | .const _ | .unary _ _ | .binary _ _ _ | .assignNone _ _ => trivial

/-- **What all nodes of an expression keep** holds after it is evaluated. -/
theorem eval_keeps (e : Expr) (h : ∀ node ∈ e.nodes, node.Keeps P) {env : Environment}
    (hP : P env) : P (eval e env).2 :=
  (eval_respects e (fun node hnode => (h node hnode).respects) ⟨rfl, hP⟩).2.2

/-- **What all nodes of a program keep** holds after a run of it. -/
theorem Program.run_keeps (p : Program) (h : ∀ node ∈ p.nodes, node.Keeps P) {env : Environment}
    (hP : P env) : P (p.run env) :=
  (p.run_respects (fun node hnode => (h node hnode).respects) ⟨rfl, hP⟩).2

end Keeps

/-! ### Views of an environment -/

section Leaves

variable {α : Type} (view : Environment → α)

/-- What a node does by itself, apart from its parts, cannot be seen. -/
def Expr.Leaves : Expr → Prop
  | .assignVar name _ => ∀ env value, view (env.write name value) = view env
  | .assignCell bank _ _ => ∀ env address value, view (env.writeCell bank address value) = view env
  | .call _ (some function) _ => ∀ args env, view (function.apply args env).2 = view env
  | _ => True

variable {view}

/-- A node that cannot be seen keeps what is seen. -/
theorem Expr.Leaves.keeps {node : Expr} (h : node.Leaves view) (a : α) :
    node.Keeps fun env => view env = a := by
  match node with
  | .assignVar _ _ => exact fun env value => (h env value).trans
  | .assignCell _ _ _ => exact fun env address value => (h env address value).trans
  | .call _ (some _) _ => exact fun args env => (h args env).trans
  | .call _ none _ | .const _ | .var _ | .unary _ _ | .binary _ _ _ | .assignNone _ _ => trivial

/-- **What no node of an expression changes** is the same after it is evaluated. -/
theorem eval_leaves (e : Expr) (h : ∀ node ∈ e.nodes, node.Leaves view) (env : Environment) :
    view (eval e env).2 = view env :=
  eval_keeps e (fun node hnode => (h node hnode).keeps (view env)) rfl

theorem Program.run_leaves (p : Program) (h : ∀ node ∈ p.nodes, node.Leaves view)
    (env : Environment) : view (p.run env) = view env :=
  p.run_keeps (fun node hnode => (h node hnode).keeps (view env)) rfl

end Leaves

/-! ### Memories -/

/-- Functions write no memory. -/
theorem Builtin.apply_bank (f : Builtin) (args : List Float) (env : Environment) (b : Bank) :
    (f.apply args env).2.bank b = env.bank b := by
  cases f <;> cases b <;> rfl

/-- A node that assigns to no cell of a memory leaves it. -/
theorem Expr.leaves_bank {node : Expr} {b : Bank}
    (h : ∀ index value, node ≠ .assignCell b index value) : node.Leaves (·.bank b) := by
  match node with
  | .assignVar name _ => cases b <;> exact fun _ _ => rfl
  | .assignCell bank index value =>
    have hbank : bank ≠ b := by
      rintro rfl
      exact h index value rfl
    cases bank <;> cases b <;> first | exact absurd rfl hbank | exact fun _ _ _ => rfl
  | .call _ (some f) _ => exact fun args env => f.apply_bank args env b
  | .call _ none _ | .const _ | .var _ | .unary _ _ | .binary _ _ _ | .assignNone _ _ => trivial

/-- The program nowhere assigns to a cell of the memory. -/
def Program.NeverAssigns (p : Program) (b : Bank) : Prop :=
  ∀ index value, Expr.assignCell b index value ∉ p.nodes

/-- **Only assignments to its cells** change a memory. -/
theorem Program.run_bank {p : Program} {b : Bank} (h : p.NeverAssigns b) (env : Environment) :
    (p.run env).bank b = env.bank b := by
  refine p.run_leaves (fun node hnode => Expr.leaves_bank fun index value heq => ?_) env
  exact h index value (heq ▸ hnode)

/-! ### Variables and the random stream -/

/-- Functions set no variable. -/
theorem Builtin.apply_vars (f : Builtin) (args : List Float) (env : Environment) :
    (f.apply args env).2.vars = env.vars := by
  cases f <;> rfl

/-- No function but `rand` draws a random number. -/
theorem Builtin.apply_random {f : Builtin} (hf : f ≠ .rand) (args : List Float)
    (env : Environment) : (f.apply args env).2.random = env.random := by
  cases f with
  | rand => exact absurd rfl hf
  | _ => rfl

/-- Writing a cell sets no variable and draws no random number. -/
theorem Environment.writeCell_eq (env : Environment) (b : Bank) (address : Int) (value : Float) :
    (env.writeCell b address value).vars = env.vars ∧
      (env.writeCell b address value).random = env.random := by
  cases b <;> exact ⟨rfl, rfl⟩

/-- Setting a variable leaves the others. -/
theorem Environment.write_of_ne {x name : String} (h : name ≠ x) (env : Environment)
    (value : Float) : (env.write name value).vars.get? x = env.vars.get? x :=
  (Variables.get?_set _ _ _ _).trans (if_neg h)

/-- A node that does not set a variable leaves it. -/
theorem Expr.leaves_var {node : Expr} {x : String} (h : ∀ value, node ≠ .assignVar x value) :
    node.Leaves (·.vars.get? x) := by
  match node with
  | .assignVar name value =>
    have hname : name ≠ x := by
      rintro rfl
      exact h value rfl
    exact Environment.write_of_ne hname
  | .assignCell bank _ _ =>
    exact fun env address value => congrArg (·.get? x) (env.writeCell_eq bank address value).1
  | .call _ (some f) _ => exact fun args env => congrArg (·.get? x) (f.apply_vars args env)
  | .call _ none _ | .const _ | .var _ | .unary _ _ | .binary _ _ _ | .assignNone _ _ => trivial

/-- Setting a variable removes none. -/
theorem Environment.isSome_write {env : Environment} {x : String} (h : (env.vars.get? x).isSome)
    (name : String) (value : Float) : ((env.write name value).vars.get? x).isSome := by
  rw [Environment.write, Variables.get?_set]
  split
  · rfl
  · exact h

/-- No node removes a variable. -/
theorem Expr.keeps_isSome (node : Expr) (x : String) :
    node.Keeps fun env => (env.vars.get? x).isSome := by
  match node with
  | .assignVar name _ => exact fun env value hset => Environment.isSome_write hset name value
  | .assignCell bank _ _ =>
    intro env address value hset
    rwa [(env.writeCell_eq bank address value).1]
  | .call _ (some f) _ =>
    intro args env hset
    rwa [f.apply_vars args env]
  | .call _ none _ | .const _ | .var _ | .unary _ _ | .binary _ _ _ | .assignNone _ _ => trivial

/-- A node that does not call `rand` leaves the random stream. -/
theorem Expr.leaves_random {node : Expr} (h : ∀ name args, node ≠ .call name (some .rand) args) :
    node.Leaves (·.random) := by
  match node with
  | .assignVar _ _ => exact fun _ _ => rfl
  | .assignCell bank _ _ => exact fun env address value => (env.writeCell_eq bank address value).2
  | .call name (some f) args =>
    have hf : f ≠ .rand := by
      rintro rfl
      exact h name args rfl
    exact Builtin.apply_random hf
  | .call _ none _ | .const _ | .var _ | .unary _ _ | .binary _ _ _ | .assignNone _ _ => trivial

/-- The program nowhere sets the variable. -/
def Program.NeverSets (p : Program) (x : String) : Prop :=
  ∀ value, Expr.assignVar x value ∉ p.nodes

/-- A program that nowhere sets a variable leaves it. -/
theorem Program.run_var {p : Program} {x : String} (h : p.NeverSets x) (env : Environment) :
    (p.run env).vars.get? x = env.vars.get? x := by
  refine p.run_leaves (fun node hnode => Expr.leaves_var fun value heq => ?_) env
  exact h value (heq ▸ hnode)

/-! ### What a script names -/

/-- The second environment differs from the first only in what some nodes name: a variable is the
same unless one of them sets it, and none is removed; a memory is the same unless one of them
assigns to a cell of it; and so is the random stream unless one of them calls `rand`. -/
structure ChangesOnly (nodes : List Expr) (env env' : Environment) : Prop where
  var : ∀ x, (∀ value, Expr.assignVar x value ∉ nodes) → env'.vars.get? x = env.vars.get? x
  isSome : ∀ x, (env.vars.get? x).isSome → (env'.vars.get? x).isSome
  bank : ∀ b, (∀ index value, Expr.assignCell b index value ∉ nodes) → env'.bank b = env.bank b
  random : (∀ name args, Expr.call name (some .rand) args ∉ nodes) → env'.random = env.random

/-- Nodes change only what they name if all is left that none of them changes by itself, and all is
kept that all of them keep. -/
theorem ChangesOnly.of_leaves {nodes : List Expr} {env env' : Environment}
    (hleaves : ∀ {α : Type} {view : Environment → α}, (∀ node ∈ nodes, node.Leaves view) →
      view env' = view env)
    (hkeeps : ∀ {P : Environment → Prop}, (∀ node ∈ nodes, node.Keeps P) → P env → P env') :
    ChangesOnly nodes env env' where
  var := fun _ h => hleaves fun _ hnode => Expr.leaves_var fun value heq => h value (heq ▸ hnode)
  isSome := fun x => hkeeps fun node _ => node.keeps_isSome x
  bank := fun _ h => hleaves fun _ hnode =>
    Expr.leaves_bank fun index value heq => h index value (heq ▸ hnode)
  random := fun h => hleaves fun _ hnode =>
    Expr.leaves_random fun name args heq => h name args (heq ▸ hnode)

/-- **A script changes only what it names**, and so does every expression: the variables that it
sets, the memories to whose cells it assigns, and the random stream if it calls `rand`. -/
theorem changes_only :
    (∀ (p : Program) (env : Environment), ChangesOnly p.nodes env (p.run env)) ∧
      ∀ (e : Expr) (env : Environment), ChangesOnly e.nodes env (eval e env).2 :=
  ⟨fun p env => .of_leaves (fun h => p.run_leaves h env) fun h => p.run_keeps h,
    fun e env => .of_leaves (fun h => eval_leaves e h env) fun h => eval_keeps e h⟩

end PointScope.Script

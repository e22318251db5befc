import PointScope.Proofs.Script.Effects

/-!
# What scripts come across

The evaluation of an expression evaluates some of its nodes, one after another, and each of them
finds the environment that those before it have left. `visits` lists them. A node that evaluation
leaves out is not visited: a right operand of which the left one decides the value, an argument
behind the third, and all arguments of a function that does not exist.

A property that all nodes keep holds at every visit (`visits_keep`). So a script that nowhere sets a
variable reads the value that it started with wherever it reads it (`Program.readings_eq`).
-/

namespace PointScope.Script

/-! ### Visits -/

mutual

/-- The nodes that the evaluation of an expression visits, each with the environment it finds. -/
def visits : Expr → Environment → List (Expr × Environment)
  | .const value, env => [(.const value, env)]
  | .var name, env => [(.var name, env)]
  | .unary op e, env => (.unary op e, env) :: visits e env
  | .binary op l r, env =>
    (.binary op l r, env) :: (visits l env ++
      match op.decided? (eval l env).1 with
      | some _ => []
      | none => visits r (eval l env).2)
  | .call name none args, env => [(.call name none args, env)]
  | .call name (some function) args, env =>
    (.call name (some function) args, env) :: visitsOfArgs Builtin.maxArgs args env
  | .assignVar name value, env => (.assignVar name value, env) :: visits value env
  | .assignCell bank index value, env =>
    (.assignCell bank index value, env) :: (visits index env ++ visits value (eval index env).2)
  | .assignNone target value, env =>
    (.assignNone target value, env) :: (visits target env ++ visits value (eval target env).2)

/-- The visits to the first `n` arguments. -/
def visitsOfArgs : Nat → List Expr → Environment → List (Expr × Environment)
  | 0, _, _ => []
  | _, [], _ => []
  | n + 1, e :: es, env => visits e env ++ visitsOfArgs n es (eval e env).2

end

/-- The visits of a statement; to set a variable is the same as to assign to it. -/
def Statement.visits : Statement → Environment → List (Expr × Environment)
  | .assign name value => Script.visits (.assignVar name value)
  | .expr e => Script.visits e

/-- The visits of statements in order. -/
def visitsOfAll : List Statement → Environment → List (Expr × Environment)
  | [], _ => []
  | s :: rest, env => s.visits env ++ visitsOfAll rest (s.run env).2

/-- The visits of a program. -/
def Program.visits (p : Program) (env : Environment) : List (Expr × Environment) :=
  visitsOfAll p.statements env

/-! ### Nodes that are visited -/

mutual

/-- Evaluation comes across no other nodes than those of the expression. -/
theorem mem_nodes_of_mem_visits (e : Expr) (env : Environment) :
    ∀ visit ∈ visits e env, visit.1 ∈ e.nodes := by
  match e with
  | .const _ | .var _ | .call _ none _ => exact List.forall_mem_singleton.mpr List.mem_cons_self
  | .unary op e =>
    refine List.forall_mem_cons.mpr ⟨List.mem_cons_self, fun visit hvisit => ?_⟩
    exact List.mem_cons_of_mem _ (mem_nodes_of_mem_visits e env visit hvisit)
  | .binary op l r =>
    rw [visits]
    refine List.forall_mem_cons.mpr ⟨List.mem_cons_self, fun visit hvisit => ?_⟩
    refine List.mem_cons_of_mem _ (List.mem_append.mpr ?_)
    refine (List.mem_append.mp hvisit).imp (mem_nodes_of_mem_visits l env visit) fun hright => ?_
    -- a right operand that is left out is not visited
    split at hright
    · cases hright
    · exact mem_nodes_of_mem_visits r _ visit hright
  | .call name (some function) args =>
    refine List.forall_mem_cons.mpr ⟨List.mem_cons_self, fun visit hvisit => ?_⟩
    exact List.mem_cons_of_mem _
      (mem_nodes_of_mem_visitsOfArgs Builtin.maxArgs args env visit hvisit)
  | .assignVar name value =>
    refine List.forall_mem_cons.mpr ⟨List.mem_cons_self, fun visit hvisit => ?_⟩
    exact List.mem_cons_of_mem _ (mem_nodes_of_mem_visits value env visit hvisit)
  | .assignCell _ first second | .assignNone first second =>
    refine List.forall_mem_cons.mpr ⟨List.mem_cons_self, fun visit hvisit => ?_⟩
    refine List.mem_cons_of_mem _ (List.mem_append.mpr ?_)
    exact (List.mem_append.mp hvisit).imp (mem_nodes_of_mem_visits first env visit)
      (mem_nodes_of_mem_visits second _ visit)

private theorem mem_nodes_of_mem_visitsOfArgs (n : Nat) (args : List Expr) (env : Environment) :
    ∀ visit ∈ visitsOfArgs n args env, visit.1 ∈ nodesOfArgs args := by
  match n, args with
  | 0, _ =>
    rw [visitsOfArgs]
    exact List.forall_mem_nil _
  | n + 1, [] => exact List.forall_mem_nil _
  | n + 1, e :: es =>
    intro visit hvisit
    refine List.mem_append.mpr ?_
    exact (List.mem_append.mp hvisit).imp (mem_nodes_of_mem_visits e env visit)
      (mem_nodes_of_mem_visitsOfArgs n es _ visit)

end

theorem Statement.mem_nodes_of_mem_visits (s : Statement) (env : Environment) :
    ∀ visit ∈ s.visits env, visit.1 ∈ s.nodes := by
  cases s with
  | assign name value => exact Script.mem_nodes_of_mem_visits (.assignVar name value) env
  | expr e => exact Script.mem_nodes_of_mem_visits e env

/-- A run comes across no other nodes than those of the program. -/
theorem Program.mem_nodes_of_mem_visits (p : Program) (env : Environment) :
    ∀ visit ∈ p.visits env, visit.1 ∈ p.nodes := by
  unfold Program.visits Program.nodes
  generalize p.statements = statements
  induction statements generalizing env with
  | nil => exact List.forall_mem_nil _
  | cons s rest ih =>
    intro visit hvisit
    refine List.mem_append.mpr ?_
    exact (List.mem_append.mp hvisit).imp (s.mem_nodes_of_mem_visits env visit) (ih _ visit)

/-! ### What holds at every visit -/

section Keeps

variable {P : Environment → Prop}

mutual

/-- **What all nodes of an expression keep** holds at every visit of its evaluation. -/
theorem visits_keep (e : Expr) (h : ∀ node ∈ e.nodes, node.Keeps P) {env : Environment}
    (hP : P env) : ∀ visit ∈ visits e env, P visit.2 := by
  match e with
  | .const _ | .var _ | .call _ none _ => exact List.forall_mem_singleton.mpr hP
  | .unary op e =>
    obtain ⟨-, he⟩ := List.forall_mem_cons.mp h
    exact List.forall_mem_cons.mpr ⟨hP, visits_keep e he hP⟩
  | .binary op l r =>
    obtain ⟨-, hparts⟩ := List.forall_mem_cons.mp h
    obtain ⟨hl, hr⟩ := List.forall_mem_append.mp hparts
    rw [visits]
    refine List.forall_mem_cons.mpr ⟨hP, List.forall_mem_append.mpr ⟨visits_keep l hl hP, ?_⟩⟩
    -- the right operand starts from where the left one ended
    split
    · exact List.forall_mem_nil _
    · exact visits_keep r hr (eval_keeps l hl hP)
  | .call name (some function) args =>
    obtain ⟨-, hargs⟩ := List.forall_mem_cons.mp h
    exact List.forall_mem_cons.mpr ⟨hP, visitsOfArgs_keep Builtin.maxArgs args hargs hP⟩
  | .assignVar name value =>
    obtain ⟨-, hvalue⟩ := List.forall_mem_cons.mp h
    exact List.forall_mem_cons.mpr ⟨hP, visits_keep value hvalue hP⟩
  | .assignCell _ first second | .assignNone first second =>
    obtain ⟨-, hparts⟩ := List.forall_mem_cons.mp h
    obtain ⟨hfirst, hsecond⟩ := List.forall_mem_append.mp hparts
    refine List.forall_mem_cons.mpr ⟨hP, List.forall_mem_append.mpr ⟨?_, ?_⟩⟩
    · exact visits_keep first hfirst hP
    · exact visits_keep second hsecond (eval_keeps first hfirst hP)

private theorem visitsOfArgs_keep (n : Nat) (args : List Expr)
    (h : ∀ node ∈ nodesOfArgs args, node.Keeps P) {env : Environment} (hP : P env) :
    ∀ visit ∈ visitsOfArgs n args env, P visit.2 := by
  match n, args with
  | 0, _ =>
    rw [visitsOfArgs]
    exact List.forall_mem_nil _
  | n + 1, [] => exact List.forall_mem_nil _
  | n + 1, e :: es =>
    obtain ⟨he, hes⟩ := List.forall_mem_append.mp h
    refine List.forall_mem_append.mpr ⟨visits_keep e he hP, ?_⟩
    exact visitsOfArgs_keep n es hes (eval_keeps e he hP)

end

theorem Statement.visits_keep (s : Statement) (h : ∀ node ∈ s.nodes, node.Keeps P)
    {env : Environment} (hP : P env) : ∀ visit ∈ s.visits env, P visit.2 := by
  cases s with
  | assign name value => exact Script.visits_keep (.assignVar name value) h hP
  | expr e => exact Script.visits_keep e h hP

theorem Statement.run_keeps (s : Statement) (h : ∀ node ∈ s.nodes, node.Keeps P)
    {env : Environment} (hP : P env) : P (s.run env).2 := by
  cases s with
  | assign name value => exact eval_keeps (.assignVar name value) h hP
  | expr e => exact eval_keeps e h hP

/-- What all nodes of a program keep holds at every visit of its run. -/
theorem Program.visits_keep (p : Program) (h : ∀ node ∈ p.nodes, node.Keeps P) {env : Environment}
    (hP : P env) : ∀ visit ∈ p.visits env, P visit.2 := by
  unfold Program.visits
  unfold Program.nodes at h
  generalize p.statements = statements at h ⊢
  induction statements generalizing env with
  | nil => exact List.forall_mem_nil _
  | cons s rest ih =>
    obtain ⟨hs, hrest⟩ := List.forall_mem_append.mp h
    exact List.forall_mem_append.mpr ⟨s.visits_keep hs hP, ih (s.run_keeps hs hP) hrest⟩

end Keeps

/-! ### Reading a variable -/

/-- What is read from a variable `x` at a visit, if it is one to that variable. -/
def reading? (x : String) : Expr × Environment → Option Float
  | (.var name, env) => if name = x then some (env.read x) else none
  | _ => none

/-- The values that a program reads from a variable, in order. -/
def Program.readings (p : Program) (x : String) (env : Environment) : List Float :=
  (p.visits env).filterMap (reading? x)

/-- What a visit reads is what the variable has there. -/
private theorem eq_read_of_reading? {x : String} {visit : Expr × Environment} {v : Float}
    (h : reading? x visit = some v) : v = visit.2.read x := by
  unfold reading? at h
  split at h
  · split at h
    · exact (Option.some.inj h).symm
    · cases h
  · cases h

/-- **A variable that a program nowhere sets** has the same value wherever the program reads it. -/
theorem Program.readings_eq {p : Program} {x : String} (h : p.NeverSets x) {env : Environment}
    {value : Float} (hvalue : env.vars.get? x = some value) :
    ∀ v ∈ p.readings x env, v = value := by
  intro v hv
  obtain ⟨visit, hvisit, hreading⟩ := List.mem_filterMap.mp hv
  have hkeeps : ∀ node ∈ p.nodes, node.Keeps fun env => env.vars.get? x = some value := by
    intro node hnode
    refine (Expr.leaves_var fun value heq => ?_).keeps _
    exact h value (heq ▸ hnode)
  have hseen : visit.2.vars.get? x = some value := p.visits_keep hkeeps hvalue visit hvisit
  rw [eq_read_of_reading? hreading, Environment.read, hseen, Option.getD_some]

end PointScope.Script

import Mathlib.Data.Set.Insert
import PointScope.Proofs.Script.Effects

/-!
# What scripts depend on

A script depends on the variables that it reads, on the two memories and on the random stream, and
on nothing else. Two environments that agree on these (`Environment.AgreeOn`) cannot be told apart
by it: it takes the same branches, computes the same addresses and draws the same random numbers, so
every statement has the same value, and what is set or written is the same in both runs
(`depends_only_on_reads`).

The invariant is `InStep`. Its second part is about all variables, those that are not read among
them, and compares the two runs with the environments that they started in.
-/

namespace PointScope.Script

/-- Equal but for variables outside some set. -/
structure Environment.AgreeOn (names : Set String) (env env' : Environment) : Prop where
  var : ∀ x ∈ names, env.vars.get? x = env'.vars.get? x
  own : env.own = env'.own
  shared : env.shared = env'.shared
  random : env.random = env'.random

/-- A variable has been given the same value in two runs, or left as it was in both. -/
def SetAlike (before after before' after' : Environment) (x : String) : Prop :=
  (∃ v, after.vars.get? x = some v ∧ after'.vars.get? x = some v) ∨
    after.vars.get? x = before.vars.get? x ∧ after'.vars.get? x = before'.vars.get? x

/-- Two runs that started in some environments have come to environments that agree, and have set
variables alike. -/
structure InStep (names : Set String) (before before' after after' : Environment) : Prop where
  agree : after.AgreeOn names after'
  setAlike : ∀ x, SetAlike before after before' after' x

section InStep

variable {names : Set String} {before before' env env' : Environment}

/-- Two runs are in step before their first node. -/
theorem InStep.start (h : env.AgreeOn names env') : InStep names env env' env env' :=
  ⟨h, fun _ => .inr ⟨rfl, rfl⟩⟩

/-- A variable on which environments agree is read alike. -/
theorem Environment.AgreeOn.read (h : env.AgreeOn names env') {x : String} (hx : x ∈ names) :
    env.read x = env'.read x := by
  rw [Environment.read, Environment.read, h.var x hx]

theorem Environment.AgreeOn.bank (h : env.AgreeOn names env') (b : Bank) :
    env.bank b = env'.bank b := by
  cases b with
  | own => exact h.own
  | shared => exact h.shared

/-- Runs that are in step remain so if neither touches a variable. -/
theorem InStep.of_vars {after after' : Environment} (h : InStep names before before' env env')
    (hvars : after.vars = env.vars) (hvars' : after'.vars = env'.vars)
    (hown : after.own = after'.own) (hshared : after.shared = after'.shared)
    (hrandom : after.random = after'.random) : InStep names before before' after after' where
  agree := ⟨by rw [hvars, hvars']; exact h.agree.var, hown, hshared, hrandom⟩
  setAlike := fun x => by
    rw [SetAlike, hvars, hvars']
    exact h.setAlike x

/-- Setting a variable keeps runs in step, whether it is ever read or not. -/
theorem InStep.write (h : InStep names before before' env env') (name : String) (value : Float) :
    InStep names before before' (env.write name value) (env'.write name value) where
  agree := by
    refine ⟨fun x hx => ?_, h.agree.own, h.agree.shared, h.agree.random⟩
    rw [Environment.write, Environment.write, Variables.get?_set, Variables.get?_set,
      h.agree.var x hx]
  setAlike := fun x => by
    by_cases hname : name = x
    · subst hname
      exact .inl ⟨value, by simp only [Environment.write, Variables.get?_set, if_true, and_self]⟩
    · rw [SetAlike, Environment.write_of_ne hname, Environment.write_of_ne hname]
      exact h.setAlike x

/-- Writing a cell keeps runs in step. -/
theorem InStep.writeCell (h : InStep names before before' env env') (b : Bank) (address : Int)
    (value : Float) : InStep names before before' (env.writeCell b address value)
      (env'.writeCell b address value) := by
  have hbank := congrArg (·.set address value) (h.agree.bank b)
  cases b with
  | own => exact h.of_vars rfl rfl hbank h.agree.shared h.agree.random
  | shared => exact h.of_vars rfl rfl h.agree.own hbank h.agree.random

/-- A function takes the same value in runs that are in step, and keeps them so. -/
theorem InStep.apply (h : InStep names before before' env env') (f : Builtin) (args : List Float) :
    Alike (InStep names before before') (f.apply args env) (f.apply args env') := by
  cases f with
  | rand =>
    have hdraw := congrArg Random.Stream.draw h.agree.random
    refine ⟨congrArg (fun u => stretch u args) (congrArg Prod.fst hdraw), ?_⟩
    exact h.of_vars rfl rfl h.agree.own h.agree.shared (congrArg Prod.snd hdraw)
  | cell b =>
    let address := Binary64.toAddress (args[0]?.getD 0)
    exact ⟨congrArg (fun m : Memory => m.get address) (h.agree.bank b), h⟩
  | _ => exact ⟨rfl, h⟩

/-- A node that reads no other variables keeps runs in step. -/
theorem InStep.respects {node : Expr} (hreads : ∀ x, node = .var x → x ∈ names) :
    node.Respects (InStep names before before') := by
  match node with
  | .var name => exact fun _ _ h => h.agree.read (hreads name rfl)
  | .assignVar name _ => exact fun _ _ value h => h.write name value
  | .assignCell b _ _ => exact fun _ _ address value h => h.writeCell b address value
  | .call _ (some f) _ => exact fun args _ _ h => h.apply f args
  | .call _ none _ | .const _ | .unary _ _ | .binary _ _ _ | .assignNone _ _ => trivial

end InStep

/-- The variables that a program reads. -/
def Program.reads (p : Program) : Set String := {x | Expr.var x ∈ p.nodes}

/-- **A script depends only on what it reads.** Run in two environments that agree on some
variables, among them all that it reads, on the memories and on the random stream, it gives every
statement the same value and leaves environments that agree again. Any other variable is given the
same value in both runs or left as it was in both. -/
theorem depends_only_on_reads {p : Program} {names : Set String} (hreads : p.reads ⊆ names)
    {env env' : Environment} (h : env.AgreeOn names env') :
    (runValues p.statements env).1 = (runValues p.statements env').1 ∧
      (p.run env).AgreeOn names (p.run env') ∧
      ∀ x ∉ names, SetAlike env (p.run env) env' (p.run env') x := by
  have hnodes : ∀ node ∈ p.nodes, node.Respects (InStep names env env') := by
    intro node hnode
    refine InStep.respects fun x heq => hreads ?_
    rwa [heq] at hnode
  have hafter := p.run_respects hnodes (.start h)
  exact ⟨(runValues_respects p.statements hnodes (.start h)).1, hafter.agree,
    fun x _ => hafter.setAlike x⟩

/-- A branch, an address and a random number that depend on one variable, beside another one that
differs. -/
theorem depends_only_on_reads_branch :
    let p : Program := .listed [.assign "x" (.binary .and (.var "a")
      (.assignCell .own (.var "a") (.call "rand" (some .rand) [])))]
    let env := (Environment.new 7 .empty).write "a" 1
    let env' := env.write "b" 2
    p.reads ⊆ {"a"} ∧ env.AgreeOn {"a"} env' ∧
      (p.run env).AgreeOn {"a"} (p.run env') ∧ SetAlike env (p.run env) env' (p.run env') "x" := by
  intro p env env'
  have hreads : p.reads ⊆ {"a"} := by
    intro x hx
    simpa [p, Program.reads, Program.nodes, Program.statements, Statement.nodes, Expr.nodes,
      nodesOfArgs] using hx
  have hagree : env.AgreeOn {"a"} env' := by
    refine ⟨fun x hx => (Environment.write_of_ne ?_ env 2).symm, rfl, rfl, rfl⟩
    obtain rfl : x = "a" := hx
    decide
  obtain ⟨-, hafter, hset⟩ := depends_only_on_reads hreads hagree
  exact ⟨hreads, hagree, hafter, hset "x" (by simp)⟩

end PointScope.Script

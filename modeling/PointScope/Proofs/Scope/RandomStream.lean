import PointScope.Proofs.Scope.Seeding
import PointScope.Proofs.Script.Rolls

/-!
# One random stream for the life of a scope

A scope has one stream, made from its seed when it is made. What takes draws from it is the calls of
`rand` that its scripts evaluate, one draw each, and nothing else: not loading or compiling, not
setting variables or cells, and not what `init` clears. `Scope.rolls` lists the calls that an
operation evaluates, and `Scope.rollsOfRun` those of a whole run. One operation draws once for each
of its rolls, in order (`perform_rolled`), and so does a run; thus the `k`-th roll in the life of a
scope has draw number `k` of the seed (`random_of_run`).
-/

namespace PointScope

open Script (Environment Roll Rolled eval rolls)
open PointScope.Random (Stream keyOfSeed)

/-- Whether an operation runs no script. -/
def Operation.isSilent : Operation → Bool
  | .init _ _ | .frame _ | .beat _ | .point _ | .render _ _ => false
  | _ => true

namespace Scope

/-- The calls of `rand` that an operation evaluates, in order. -/
def rolls (s : Scope) (op : Operation) : List Roll :=
  (s.starts op).flatMap fun start => (s.program start.phase).rolls start.environment

/-- The calls of `rand` that a run evaluates, in order. -/
def rollsOfRun (s : Scope) : List Operation → List Roll
  | [] => []
  | op :: rest => s.rolls op ++ (s.perform op).2.rollsOfRun rest

/-! ### One operation -/

section Operation

variable (s : Scope)

/-- A script draws from the stream that it starts with. -/
theorem runIn_rolled (phase : Phase) (start : Environment)
    (h : start.random = s.environment.random) :
    Rolled s.environment ((s.program phase).rolls start) (s.runIn phase start).environment :=
  .of_random_trans h ((s.program phase).run_rolled start)

theorem rolls_init (m : Moment) (forced : Option Nat) :
    s.rolls (.init m forced) = (s.program .init).rolls (s.initStart m) := List.append_nil _

/-- What `init` draws are the rolls of its script. -/
theorem init_rolled (m : Moment) (forced : Option Nat) :
    Rolled s.environment (s.rolls (.init m forced)) (s.init m forced).environment := by
  rw [rolls_init, init_eq]
  obtain ⟨_, hvars⟩ := ensureVars_vars ((s.runIn .init (s.initStart m)).settle _) "x" "y"
  exact (s.runIn_rolled .init (s.initStart m) rfl).trans_random
    (congrArg (·.environment.random) hvars)

private theorem frame_rolled (m : Moment) :
    Rolled s.environment ((s.program .frame).rolls (s.frameStart m)) (s.frame m).environment :=
  (s.runIn_rolled .frame (s.frameStart m) rfl).trans_random rfl

private theorem beat_rolled (m : Moment) :
    Rolled s.environment ((s.program .beat).rolls (s.beatStart m)) (s.beat m).environment :=
  (s.runIn_rolled .beat (s.beatStart m) rfl).trans_random rfl

private theorem point_rolled (i : Nat) :
    Rolled s.environment ((s.program .point).rolls (s.pointStart i)) (s.point i).2.environment :=
  s.runIn_rolled .point (s.pointStart i) rfl

/-- What points draw are the rolls of their scripts, in the order of the samples. -/
private theorem points_rolled (samples : List Nat) :
    Rolled s.environment
      ((s.pointStarts samples).flatMap fun start =>
        (s.program start.phase).rolls start.environment)
      (s.points samples).2.environment := by
  rw [points_snd]
  induction samples generalizing s with
  | nil => exact .of_random rfl
  | cons i rest ih => exact (s.point_rolled i).append (ih (s.point i).2)

/-- What a rendered frame draws are the rolls of its scripts, in order. -/
private theorem render_rolled (m : Moment) (hasBeat : Bool) :
    Rolled s.environment (s.rolls (.render m hasBeat)) (s.render m hasBeat).2.environment := by
  cases hasBeat with
  | false => exact (s.frame_rolled m).append ((s.frame m).points_rolled _)
  | true =>
    have hready := (s.frame_rolled m).append ((s.frame m).beat_rolled m)
    have hall := hready.append (((s.frame m).beat m).points_rolled
      (List.range ((s.frame m).beat m).samples))
    rw [List.append_assoc] at hall
    exact hall

/-- What runs no script leaves the stream alone. -/
theorem perform_random_of_isSilent {op : Operation} (hop : op.isSilent) :
    (s.perform op).2.environment.random = s.environment.random := by
  cases op with
  | load sources => exact congrArg (·.random) (s.load_environment sources)
  | loadSources a b c d => exact congrArg (·.random) (s.load_environment ⟨a, b, c, d⟩)
  | init | frame | beat | point | render => cases hop
  | _ => rfl

/-- One operation draws once for every roll, in order, and no more. -/
theorem perform_rolled (op : Operation) :
    Rolled s.environment (s.rolls op) (s.perform op).2.environment := by
  cases op with
  | init m forced => exact s.init_rolled m forced
  | frame m => exact (s.frame_rolled m).append (.of_random rfl)
  | beat m => exact (s.beat_rolled m).append (.of_random rfl)
  | point i => exact (s.point_rolled i).append (.of_random rfl)
  | render m hasBeat => exact s.render_rolled m hasBeat
  | _ => exact .of_random (s.perform_random_of_isSilent rfl)

/-- A run draws once for every roll, in order, and no more. -/
theorem performAll_rolled (ops : List Operation) :
    Rolled s.environment (s.rollsOfRun ops) (s.performAll ops).environment := by
  induction ops generalizing s with
  | nil => exact .of_random rfl
  | cons op rest ih => exact (s.perform_rolled op).append (ih (s.perform op).2)

end Operation

/-- **One random stream.** After any run, the stream of a scope is that of its seed without one draw
for every call of `rand` that was evaluated, and the `k`-th of these calls stretched draw number
`k`.

A call takes one draw whatever its arguments are. The calls that are not counted are those that
evaluation leaves out: behind a left operand that decides the value, in the call of a function that
does not exist, and behind the third argument. `init` draws for its script and does not go back, and
no operation without a script draws at all. -/
theorem random_of_run (c : Config) (shared : Memory) (ops : List Operation) :
    let s := Scope.new c shared
    let counted := s.rollsOfRun ops
    ((s.performAll ops).environment.random = (Stream.ofSeed c.seed).skip counted.length ∧
        counted.map (·.environment.random) =
          (List.range counted.length).map (Stream.ofSeed c.seed).skip ∧
        counted.map Roll.value = counted.mapIdx fun k r =>
          Script.stretch (Stream.drawAt (keyOfSeed c.seed) k) r.args) ∧
      (∀ args env, (Script.Builtin.rand.apply args env).2.random = env.random.skip 1) ∧
      (∀ env l r,
        ((eval l env).1 == 0 → Script.rolls (.binary .and l r) env = Script.rolls l env) ∧
        ((eval l env).1 != 0 → Script.rolls (.binary .or l r) env = Script.rolls l env)) ∧
      (∀ env name args, Script.rolls (.call name none args) env = []) ∧
      (∀ env name function args extra, 3 ≤ args.length →
        Script.rolls (.call name function (args ++ extra)) env =
          Script.rolls (.call name function args) env) ∧
      ∀ s : Scope,
        (∀ m forced, (s.init m forced).environment.random =
          s.environment.random.skip ((s.program .init).rolls (s.initStart m)).length) ∧
        ∀ op, op.isSilent → s.rolls op = [] ∧
          (s.perform op).2.environment.random = s.environment.random := by
  intro s counted
  have hrun : Rolled s.environment counted (s.performAll ops).environment := s.performAll_rolled ops
  refine ⟨⟨hrun.left, hrun.found, ?_⟩, fun _ _ => rfl, ?_, fun _ _ _ => rfl, ?_, fun s => ⟨?_, ?_⟩⟩
  · -- the stream starts at the seed, so the `k`-th call takes draw `k`
    have hvalues := hrun.values
    simp only [Nat.zero_add, s, Scope.new, Environment.new, Stream.ofSeed] at hvalues
    exact hvalues
  · intro env l r
    constructor
    · intro hzero
      rw [Script.rolls, Script.Operator.decided?, if_pos hzero]
      exact List.append_nil _
    · intro hone
      rw [Script.rolls, Script.Operator.decided?, if_pos hone]
      exact List.append_nil _
  · intro env name function args extra hlength
    exact Script.rolls_call_append hlength extra name function env
  · intro m forced
    rw [← s.rolls_init m forced]
    exact (s.init_rolled m forced).left
  · intro op hop
    refine ⟨?_, s.perform_random_of_isSilent hop⟩
    cases op with
    | init | frame | beat | point | render => cases hop
    | _ => rfl

/-- Calls of `rand` that are left out, beside three that are not, and a host that sets a variable
after a frame. -/
theorem random_of_run_left_out :
    let ops : List Operation := [.load ⟨"", "x = rand()", "", ""⟩, .frame ⟨0, 640, 480⟩]
    let s := (Scope.new {} .empty).performAll ops
    let env := s.environment
    let roll : Script.Expr := .call "rand" (some .rand) []
    (((eval (.const 0) env).1 == 0) = true ∧
        Script.rolls (.binary .and (.const 0) roll) env = []) ∧
      (((eval (.const 2) env).1 != 0) = true ∧
        Script.rolls (.binary .or (.const 2) roll) env = []) ∧
      (3 ≤ [roll, roll, roll].length ∧
        (Script.rolls (.call "min" (some .min) [roll, roll, roll, roll]) env).length = 3) ∧
      (Operation.setVar "x" 1).isSilent ∧
        (s.perform (.setVar "x" 1)).2.environment.random = s.environment.random := by
  intro ops s env roll
  obtain ⟨-, -, hshort, -, hextra, hscope⟩ := random_of_run {} .empty ops
  have hzero : ((eval (.const 0) env).1 == 0) = true := by
    rw [eval]
    decide
  have hone : ((eval (.const 2) env).1 != 0) = true := by
    rw [eval]
    decide
  have hthree : (Script.rolls (.call "min" (some .min) [roll, roll, roll, roll]) env).length = 3 :=
    congrArg List.length (hextra env "min" (some .min) [roll, roll, roll] [roll] le_rfl)
  exact ⟨⟨hzero, (hshort env (.const 0) roll).1 hzero⟩, ⟨hone, (hshort env (.const 2) roll).2 hone⟩,
    ⟨le_rfl, hthree⟩, rfl, ((hscope s).2 (.setVar "x" 1) rfl).2⟩

end Scope

end PointScope

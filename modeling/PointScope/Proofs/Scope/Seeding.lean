import Mathlib.Analysis.Real.Pi.Bounds
import PointScope.Numeric.Binary64
import PointScope.Proofs.Scope.Agreement

/-!
# What scripts find when they start

The scripts of `init`, `frame` and `beat` start in an environment that tells them when and where
they run (`Seeded`): the moment, the sample count, the circle number, whether there is a beat, and
how many frames there have been. Nothing that was in these eight variables before can be told from
what a scope does next. Two scopes that differ only there are the same after `init`, `frame` or
`beat` (`SameButSeeded.frame`), so what a host or a `point` script leaves in `n` never becomes the
sample count.

`Scope.starts` lists the scripts that an operation runs, each with the environment it starts in; the
points of a rendered frame are those that the `point` scripts among them leave (`Scope.render_eq`).
-/

namespace PointScope

open Script (Environment Variables)

/-! ### Scripts as they start -/

/-- A script that is run: its phase, and the environment that it starts in. -/
structure Start where
  phase : Phase
  environment : Environment

namespace Scope

section Starts

variable (s : Scope)

/-- The environment that the `init` script starts in. -/
def initStart (m : Moment) : Environment :=
  (Scope.seed { s with environment := s.environment.clearVariables } m false).environment

/-- The environment that the `frame` script starts in. -/
def frameStart (m : Moment) : Environment := (s.seed m false).environment

/-- The environment that the `beat` script starts in. -/
def beatStart (m : Moment) : Environment := (s.seed m true).environment

/-- The environment that the `point` script starts in. -/
def pointStart (i : Nat) : Environment := s.environment.write "i" (Float.ofNat i)

/-- The `point` scripts of samples in order. -/
def pointStarts (s : Scope) : List Nat → List Start
  | [] => []
  | i :: rest => ⟨.point, s.pointStart i⟩ :: (s.point i).2.pointStarts rest

/-- The scripts that an operation runs, in order. -/
def starts : Operation → List Start
  | .init m _ => [⟨.init, s.initStart m⟩]
  | .frame m => [⟨.frame, s.frameStart m⟩]
  | .beat m => [⟨.beat, s.beatStart m⟩]
  | .point i => s.pointStarts [i]
  | .render m hasBeat =>
    let framed := s.frame m
    let ready := if hasBeat then framed.beat m else framed
    ⟨.frame, s.frameStart m⟩ :: ((if hasBeat then [⟨.beat, framed.beatStart m⟩] else []) ++
      ready.pointStarts (List.range ready.samples))
  | _ => []

/-- The point that a `point` script leaves. -/
def pointIn (ended : Environment) : Point :=
  (coordinate (ended.get "x" 0), coordinate (ended.get "y" 0))

/-- The scope after the script of a phase has run in some environment. -/
def runIn (phase : Phase) (start : Environment) : Scope :=
  { s with environment := (s.program phase).run start }

/-- All that `init` does after its script is to settle on a sample count and to make sure of the
coordinates. -/
theorem init_eq (m : Moment) (forced : Option Nat) :
    s.init m forced =
      let ran := s.runIn .init (s.initStart m)
      ((ran.settle ((forced.map s.config.clamp).getD ran.requestedSamples)).ensureVar
        "x").ensureVar "y" := by
  cases forced <;> rfl

/-- All that `frame` does after its script is to settle on a sample count and to count the frame. -/
theorem frame_eq (m : Moment) :
    s.frame m =
      let ran := s.runIn .frame (s.frameStart m)
      { ran.settle ran.requestedSamples with frameIndex := s.frameIndex + 1 } := rfl

/-- All that `beat` does after its script is to settle on a sample count. -/
theorem beat_eq (m : Moment) :
    s.beat m =
      let ran := s.runIn .beat (s.beatStart m)
      ran.settle ran.requestedSamples := rfl

/-- All that `point` does is to run its script and to read the coordinates. -/
theorem point_eq (i : Nat) :
    s.point i =
      let ended := (s.program .point).run (s.pointStart i)
      (pointIn ended, { s with environment := ended }) := rfl

/-- The points are what the `point` scripts leave in `x` and `y`. -/
theorem points_eq (samples : List Nat) :
    (s.points samples).1.toList = (s.pointStarts samples).map fun start =>
      pointIn ((s.program .point).run start.environment) := by
  -- the points before them do not matter, so they may be any
  suffices key : ∀ (out : Array Point) (s : Scope), (samples.foldl
      (fun (acc : Array Point × Scope) i =>
        (acc.1.push (acc.2.point i).1, (acc.2.point i).2)) (out, s)).1.toList =
      out.toList ++ (s.pointStarts samples).map fun start =>
        pointIn ((s.program .point).run start.environment) from key #[] s
  induction samples with
  | nil => exact fun out _ => (List.append_nil out.toList).symm
  | cons i rest ih =>
    intro out s
    rw [List.foldl_cons, ih, Array.toList_push, List.append_assoc]
    rfl

theorem pointStarts_phase (samples : List Nat) :
    ∀ start ∈ s.pointStarts samples, start.phase = .point := by
  induction samples generalizing s with
  | nil => exact List.forall_mem_nil _
  | cons i rest ih => exact List.forall_mem_cons.mpr ⟨rfl, ih _⟩

/-- A rendered frame has the points of the `point` scripts among those that it runs. -/
theorem render_eq (m : Moment) (hasBeat : Bool) :
    (s.render m hasBeat).1.toList =
      ((s.starts (.render m hasBeat)).filter (·.phase = .point)).map fun start =>
        pointIn ((s.program .point).run start.environment) := by
  let ready := if hasBeat then (s.frame m).beat m else s.frame m
  have hprogram : ready.program .point = s.program .point := by cases hasBeat <;> rfl
  have hstarts : (s.starts (.render m hasBeat)).filter (·.phase = .point) =
      ready.pointStarts (List.range ready.samples) := by
    have hpoints : (ready.pointStarts (List.range ready.samples)).filter (·.phase = .point) = _ :=
      List.filter_eq_self.mpr fun start h => decide_eq_true (ready.pointStarts_phase _ start h)
    cases hasBeat <;> exact hpoints
  rw [hstarts, ← hprogram]
  exact ready.points_eq _

end Starts

end Scope

/-! ### Counting frames -/

/-- Whether an operation runs the `frame` script. -/
def Operation.isFrame : Operation → Bool
  | .frame _ | .render _ _ => true
  | _ => false

/-- How many frames a run has, rendered or not. -/
def frameCount (ops : List Operation) : Nat := ops.countP Operation.isFrame

/-- The frames of two runs are counted one after the other. -/
theorem frameCount_append (ops ops' : List Operation) :
    frameCount (ops ++ ops') = frameCount ops + frameCount ops' := List.countP_append

namespace Scope

private theorem points_frameIndex (s : Scope) (samples : List Nat) :
    (s.points samples).2.frameIndex = s.frameIndex := by
  obtain ⟨_, h⟩ := s.points_environment samples
  rw [h]

/-- The number of the frame goes up with every `frame`, and with nothing else. -/
theorem perform_frameIndex (s : Scope) (op : Operation) :
    (s.perform op).2.frameIndex = s.frameIndex + frameCount [op] := by
  cases op with
  | load sources => exact s.load_frameIndex sources
  | loadSources a b c d => exact s.load_frameIndex ⟨a, b, c, d⟩
  | init m forced =>
    obtain ⟨_, hvars⟩ := ensureVars_vars ((s.runIn .init (s.initStart m)).settle _) "x" "y"
    exact congrArg (·.frameIndex) hvars
  | render m hasBeat => cases hasBeat <;> exact points_frameIndex _ _
  | _ => rfl

/-- **The number of the frame** is the number of frames so far; no other operation touches it. -/
theorem performAll_frameIndex (s : Scope) (ops : List Operation) :
    (s.performAll ops).frameIndex = s.frameIndex + frameCount ops := by
  induction ops generalizing s with
  | nil => rfl
  | cons op rest ih =>
    have hcount : frameCount (op :: rest) = frameCount [op] + frameCount rest :=
      frameCount_append [op] rest
    rw [performAll, List.foldl_cons, ← performAll, ih, perform_frameIndex, hcount, Nat.add_assoc]

end Scope

/-! ### Seeded variables -/

/-- A script finds in an environment when and where it runs: the moment, the sample count, the
circle number, whether there is a beat, and how many frames there have been. -/
structure Seeded (env : Environment) (m : Moment) (samples frames : Nat) (beat : Bool) : Prop where
  t : env.vars.get? "t" = some m.time
  time : env.vars.get? "time" = some m.time
  w : env.vars.get? "w" = some m.width
  h : env.vars.get? "h" = some m.height
  n : env.vars.get? "n" = some (Float.ofNat samples)
  pi : env.vars.get? "pi" = some Scope.pi
  beat : env.vars.get? "beat" = some (if beat then 1 else 0)
  frame : env.vars.get? "frame" = some (Float.ofNat frames)

/-- The variables that are seeded. -/
def seededNames : List String := ["t", "time", "w", "h", "n", "pi", "beat", "frame"]

namespace Scope

/-- Seeding sets the seeded variables, one after another; none is set twice. -/
theorem seed_seeded (s : Scope) (m : Moment) (beat : Bool) :
    Seeded (s.seed m beat).environment m s.samples s.frameIndex beat := by
  constructor <;> simp [seed, Environment.write, Variables.get?_set, Script.truth]

end Scope

/-- Variables are equal if they have the same values. -/
theorem Script.Variables.ext {v v' : Variables} (h : ∀ x, v.get? x = v'.get? x) : v = v' := by
  obtain ⟨values⟩ := v
  obtain ⟨values'⟩ := v'
  exact congrArg Variables.mk (Std.ExtTreeMap.ext_getElem? h)

/-- Setting variables makes environments equal that differ in no others. -/
private theorem Script.Environment.foldl_write_eq {entries : List (String × Float)}
    {env : Environment}
    {vars : Variables} (h : ∀ x ∉ entries.map Prod.fst, vars.get? x = env.vars.get? x) :
    entries.foldl (fun env (name, value) => env.write name value) { env with vars := vars } =
      entries.foldl (fun env (name, value) => env.write name value) env := by
  induction entries generalizing env vars with
  | nil =>
    have hvars : vars = env.vars := Variables.ext fun x => h x List.not_mem_nil
    rw [hvars]
  | cons entry rest ih =>
    obtain ⟨name, value⟩ := entry
    -- the entry at the front is overwritten in both
    refine ih (fun x hx => ?_ : ∀ x ∉ rest.map Prod.fst,
      (vars.set name value).get? x = (env.write name value).vars.get? x)
    rw [Environment.write, Variables.get?_set, Variables.get?_set]
    split
    · rfl
    · rename_i hname
      exact h x fun hmem => (List.mem_cons.mp hmem).elim (fun heq => hname heq.symm) hx

namespace Scope

/-- Equal but for the values of seeded variables, or whether they are set. -/
structure SameButSeeded (s s' : Scope) : Prop where
  rest : s' = { s with environment := { s.environment with vars := s'.environment.vars } }
  vars : ∀ x ∉ seededNames, s'.environment.vars.get? x = s.environment.vars.get? x

section SameButSeeded

variable {s s' : Scope} (h : s.SameButSeeded s')

include h

/-- Seeding makes them equal. -/
theorem SameButSeeded.seed (m : Moment) (beat : Bool) : s'.seed m beat = s.seed m beat := by
  obtain ⟨vars, hs', hvars⟩ : ∃ vars, s' = { s with environment := { s.environment with vars } } ∧
      ∀ x ∉ seededNames, vars.get? x = s.environment.vars.get? x := ⟨_, h.rest, h.vars⟩
  subst hs'
  refine congrArg (fun environment => { s with environment })
    (Script.Environment.foldl_write_eq ?_)
  exact hvars

theorem SameButSeeded.clearVariables :
    ({ s' with environment := s'.environment.clearVariables } : Scope) =
      { s with environment := s.environment.clearVariables } := by
  rw [h.rest]
  rfl

/-- What a scope had in the seeded variables cannot be told from it after `init`. -/
theorem SameButSeeded.init (m : Moment) (forced : Option Nat) :
    s'.init m forced = s.init m forced := by
  unfold Scope.init
  rw [h.clearVariables]

/-- What a scope had in the seeded variables cannot be told from it after `frame`. -/
theorem SameButSeeded.frame (m : Moment) : s'.frame m = s.frame m := by
  unfold Scope.frame
  rw [h.seed m false]

/-- What a scope had in the seeded variables cannot be told from it after `beat`. -/
theorem SameButSeeded.beat (m : Moment) : s'.beat m = s.beat m := by
  unfold Scope.beat
  rw [h.seed m true]

end SameButSeeded

/-- A host that sets a seeded variable changes nothing else. -/
theorem sameButSeeded_setVar (s : Scope) {name : String} (hname : Text.fold name ∈ seededNames)
    (value : Float) : s.SameButSeeded (s.setVar name value) where
  rest := rfl
  vars := fun x hx => by
    have hne : Text.fold name ≠ x := fun heq => hx (heq ▸ hname)
    exact (Variables.get?_set _ _ _ _).trans (if_neg hne)

/-- The circle number is given as the double nearest to it. -/
theorem pi_nearest : ∃ m e, Binary64.parts pi = .finite false m e ∧ 2 ^ 52 ≤ m ∧
    |(m * 2 ^ e : ℝ) - Real.pi| < 2 ^ e / 2 := by
  refine ⟨7074237752028440, -51, by decide +kernel, by norm_num, ?_⟩
  have hlow := Real.pi_gt_d20
  have hhigh := Real.pi_lt_d20
  rw [abs_lt]
  constructor <;> norm_num <;> linarith

/-- **What scripts find when they start.** Through any run, the scripts of `init`, `frame` and
`beat` start in an environment where the seeded variables are the given moment, the sample count
that the scope has, the circle number, whether there is a beat, and the number of frames so far; the
rest of an operation sees only what the script made of it. Scopes that differ only in seeded
variables are the same after `init`, `frame` or `beat`, so it does not matter what a host sets any
of them to. -/
theorem seeded_of_run (c : Config) (shared : Memory) (ops : List Operation) :
    let s := (Scope.new c shared).performAll ops
    (∀ m forced, ∃ start, s.starts (.init m forced) = [⟨.init, start⟩] ∧
        Seeded start m s.samples (frameCount ops) false ∧
        let ran := s.runIn .init start
        s.init m forced = ((ran.settle ((forced.map s.config.clamp).getD
          ran.requestedSamples)).ensureVar "x").ensureVar "y") ∧
      (∀ m, ∃ start, s.starts (.frame m) = [⟨.frame, start⟩] ∧
        Seeded start m s.samples (frameCount ops) false ∧
        let ran := s.runIn .frame start
        s.frame m = { ran.settle ran.requestedSamples with frameIndex := s.frameIndex + 1 }) ∧
      (∀ m, ∃ start, s.starts (.beat m) = [⟨.beat, start⟩] ∧
        Seeded start m s.samples (frameCount ops) true ∧
        let ran := s.runIn .beat start
        s.beat m = ran.settle ran.requestedSamples) ∧
      (∃ m e, Binary64.parts pi = .finite false m e ∧ 2 ^ 52 ≤ m ∧
        |(m * 2 ^ e : ℝ) - Real.pi| < 2 ^ e / 2) ∧
      (∀ s s' : Scope, s.SameButSeeded s' → ∀ m, (∀ forced, s'.init m forced = s.init m forced) ∧
        s'.frame m = s.frame m ∧ s'.beat m = s.beat m) ∧
      ∀ name value, Text.fold name ∈ seededNames → ∀ m,
        (∀ forced, (s.setVar name value).init m forced = s.init m forced) ∧
        (s.setVar name value).frame m = s.frame m ∧ (s.setVar name value).beat m = s.beat m := by
  intro s
  -- the frame counter tells how many frames were performed
  have hframes : s.frameIndex = frameCount ops := by
    rw [performAll_frameIndex]
    exact Nat.zero_add _
  have hsame : ∀ s s' : Scope, s.SameButSeeded s' → ∀ m,
      (∀ forced, s'.init m forced = s.init m forced) ∧
        s'.frame m = s.frame m ∧ s'.beat m = s.beat m :=
    fun _ _ h m => ⟨h.init m, h.frame m, h.beat m⟩
  rw [← hframes]
  refine ⟨fun m forced => ⟨_, rfl, seed_seeded _ m false, s.init_eq m forced⟩,
    fun m => ⟨_, rfl, s.seed_seeded m false, s.frame_eq m⟩,
    fun m => ⟨_, rfl, s.seed_seeded m true, s.beat_eq m⟩, pi_nearest, hsame, ?_⟩
  exact fun name value hname => hsame _ _ (s.sameButSeeded_setVar hname value)

/-- A host that sets `n` after the `point` script did. -/
theorem seeded_of_run_n :
    let ops : List Operation := [.load ⟨"", "n = n + 1", "", "n = 7"⟩, .point 0]
    let s := (Scope.new {} .empty).performAll ops
    let m : Moment := ⟨0, 640, 480⟩
    Text.fold "N" ∈ seededNames ∧ (s.setVar "N" 500).frame m = s.frame m := by
  intro ops s m
  have hname : Text.fold "N" ∈ seededNames := by decide +kernel
  obtain ⟨-, -, -, -, -, hset⟩ := seeded_of_run {} .empty ops
  exact ⟨hname, (hset "N" 500 hname m).2.1⟩

end Scope

end PointScope

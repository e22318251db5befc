import PointScope.Proofs.Scope.Seeding
import PointScope.Proofs.Script.Updates

/-!
# One map of variables for scripts and hosts

A scope sets variables on behalf of its host, of its scripts and of itself: it seeds them, numbers
the samples, writes back the sample count, and makes sure of the coordinates. `Scope.updates` lists
what an operation does to the variables, in order, and `Scope.updatesOfRun` does so for a whole run.
The scripts of a scope were all compiled, so their nodes are proper whatever was loaded
(`IsProper.perform`), and one operation does to the variables what its updates do
(`IsProper.perform_updated`). From the empty map of a new scope on, it follows that scripts and
hosts see one map after every run, and while the scripts of the next operation run
(`one_map_of_run`).
-/

namespace PointScope

open Script (Environment Update Updated OneMap lastSet?)

/-- The names of the seeded variables are stored as they are. -/
private theorem fold_of_mem_seededNames : ∀ name ∈ seededNames, Text.fold name = name := by
  decide +kernel

namespace Scope

/-! ### What operations do to variables -/

section Updates

variable (s : Scope)

/-- The variables that are seeded, with their values. -/
def seedEntries (m : Moment) (beat : Bool) : List (String × Float) :=
  [("t", m.time), ("time", m.time), ("w", m.width), ("h", m.height), ("n", Float.ofNat s.samples),
    ("pi", pi), ("beat", Script.truth beat), ("frame", Float.ofNat s.frameIndex)]

/-- What seeding does to the variables. -/
def seedUpdates (m : Moment) (beat : Bool) : List Update :=
  (s.seedEntries m beat).map fun entry => .set entry.1 entry.2

/-- What is set to make sure of a variable: nothing if there is one. -/
def ensureUpdates (name : String) : List Update :=
  if s.environment.contains name then [] else [.set name 0]

/-- What `init` does to the variables. -/
def initUpdates (m : Moment) (forced : Option Nat) : List Update :=
  let ran := s.runIn .init (s.initStart m)
  let settled := ran.settle ((forced.map s.config.clamp).getD ran.requestedSamples)
  [.clear] ++ s.seedUpdates m false ++ (s.program .init).updates (s.initStart m) ++
    [.set "n" (Float.ofNat settled.samples)] ++ settled.ensureUpdates "x" ++
      (settled.ensureVar "x").ensureUpdates "y"

/-- What `frame` does to the variables. -/
def frameUpdates (m : Moment) : List Update :=
  s.seedUpdates m false ++ (s.program .frame).updates (s.frameStart m) ++
    [.set "n" (Float.ofNat (s.frame m).samples)]

/-- What `beat` does to the variables. -/
def beatUpdates (m : Moment) : List Update :=
  s.seedUpdates m true ++ (s.program .beat).updates (s.beatStart m) ++
    [.set "n" (Float.ofNat (s.beat m).samples)]

/-- What `point` does to the variables. -/
def pointUpdates (i : Nat) : List Update :=
  [.set "i" (Float.ofNat i)] ++ (s.program .point).updates (s.pointStart i)

/-- What the points of samples in order do to the variables. -/
def pointsUpdates (s : Scope) : List Nat → List Update
  | [] => []
  | i :: rest => s.pointUpdates i ++ (s.point i).2.pointsUpdates rest

/-- What an operation does to the variables, in order. -/
def updates : Operation → List Update
  | .init m forced => s.initUpdates m forced
  | .frame m => s.frameUpdates m
  | .beat m => s.beatUpdates m
  | .point i => s.pointUpdates i
  | .render m hasBeat =>
    let framed := s.frame m
    let ready := if hasBeat then framed.beat m else framed
    s.frameUpdates m ++ (if hasBeat then framed.beatUpdates m else []) ++
      ready.pointsUpdates (List.range ready.samples)
  | .setVar name value => [.set name value]
  | .load _ | .loadSources _ _ _ _ | .writeShared _ _ | .clearShared => []

/-- What a run does to the variables, in order. -/
def updatesOfRun (s : Scope) : List Operation → List Update
  | [] => []
  | op :: rest => s.updates op ++ (s.perform op).2.updatesOfRun rest

end Updates

/-! ### Scopes with compiled scripts -/

/-- All scripts of the scope consist of proper nodes. -/
def IsProper (s : Scope) : Prop := ∀ phase, ∀ node ∈ (s.program phase).nodes, node.Proper

/-- A new scope has nothing to run. -/
theorem new_isProper (c : Config) (shared : Memory) : (Scope.new c shared).IsProper := by
  intro phase
  cases phase <;> exact List.forall_mem_nil _

section IsProper

variable {s : Scope} (h : s.IsProper)

include h

theorem IsProper.loadPhase (phase : Phase) (source : String) :
    (s.loadPhase phase source).2.IsProper := by
  rw [Scope.loadPhase]
  split
  · exact h
  · intro other
    rw [Scope.program, compilePhase, Phased.get_set]
    split
    · exact (Script.compile_proper source).1
    · exact h other

theorem IsProper.loadPhases (sources : Phased String) (phases : List Phase) :
    (s.loadPhases sources phases).2.IsProper := by
  induction phases generalizing s with
  | nil => exact h
  | cons phase rest ih => exact ih (h.loadPhase phase (sources.get phase))

/-- Whatever a host does, the scripts of a scope consist of proper nodes. -/
theorem IsProper.perform (op : Operation) : (s.perform op).2.IsProper := by
  cases hop : op.sources? with
  | some sources =>
    rw [perform_of_sources? hop]
    exact h.loadPhases sources Phase.all
  | none =>
    obtain ⟨_, _, _, hnext⟩ := perform_snd hop s
    rw [hnext]
    exact h

/-- **Whatever is loaded in a run has proper nodes only.** -/
theorem IsProper.performAll (ops : List Operation) : (s.performAll ops).IsProper := by
  induction ops generalizing s with
  | nil => exact h
  | cons op rest ih => exact ih (h.perform op)

end IsProper

/-! ### One operation -/

private theorem seed_updated (s : Scope) (m : Moment) (beat : Bool) :
    Updated s.environment (s.seedUpdates m beat) (s.seed m beat).environment := by
  have hnames : ∀ name ∈ (s.seedEntries m beat).map Prod.fst, Text.fold name = name :=
    fold_of_mem_seededNames
  exact .foldl_write hnames s.environment

private theorem initStart_updated (s : Scope) (m : Moment) :
    Updated s.environment ([.clear] ++ s.seedUpdates m false) (s.initStart m) := by
  let cleared : Scope := { s with environment := s.environment.clearVariables }
  have hcleared : Updated s.environment [.clear] cleared.environment := rfl
  exact hcleared.append (cleared.seed_updated m false)

private theorem pointStart_updated (s : Scope) (i : Nat) :
    Updated s.environment [.set "i" (Float.ofNat i)] (s.pointStart i) :=
  .write (by decide +kernel) _ _

private theorem settle_updated (s : Scope) (samples : Nat) :
    Updated s.environment [.set "n" (Float.ofNat samples)] (s.settle samples).environment :=
  .write (fold_of_mem_seededNames "n" (by decide)) _ _

private theorem ensureVar_updated (s : Scope) {name : String} (hname : Text.fold name = name) :
    Updated s.environment (s.ensureUpdates name) (s.ensureVar name).environment := by
  rw [ensureUpdates, ensureVar]
  split
  · exact .of_vars rfl
  · exact .write hname _ _

section IsProper

variable {s : Scope} (h : s.IsProper)

include h

/-- **A script whose nodes are proper** does to the variables what its assignments do. -/
private theorem IsProper.runIn_updated (phase : Phase) (start : Environment) :
    Updated start ((s.program phase).updates start) (s.runIn phase start).environment :=
  (s.program phase).run_updated (h phase) start

private theorem IsProper.init_updated (m : Moment) (forced : Option Nat) :
    Updated s.environment (s.initUpdates m forced) (s.init m forced).environment := by
  rw [init_eq]
  have hran := (s.initStart_updated m).append (h.runIn_updated .init _)
  refine ((hran.append (settle_updated _ _)).append (ensureVar_updated _ ?_)).append
    (ensureVar_updated _ ?_) <;> decide +kernel

private theorem IsProper.frame_updated (m : Moment) :
    Updated s.environment (s.frameUpdates m) (s.frame m).environment :=
  ((s.seed_updated m false).append (h.runIn_updated .frame _)).append (settle_updated _ _)

private theorem IsProper.beat_updated (m : Moment) :
    Updated s.environment (s.beatUpdates m) (s.beat m).environment :=
  ((s.seed_updated m true).append (h.runIn_updated .beat _)).append (settle_updated _ _)

private theorem IsProper.point_updated (i : Nat) :
    Updated s.environment (s.pointUpdates i) (s.point i).2.environment :=
  (s.pointStart_updated i).append (h.runIn_updated .point _)

/-- What the points of a frame do to the variables follows in the order of the samples. -/
private theorem IsProper.points_updated (samples : List Nat) :
    Updated s.environment (s.pointsUpdates samples) (s.points samples).2.environment := by
  rw [points_snd]
  induction samples generalizing s with
  | nil => exact .of_vars rfl
  | cons i rest ih => exact (h.point_updated i).append (ih (h.perform (.point i)))

private theorem IsProper.render_updated (m : Moment) (hasBeat : Bool) :
    Updated s.environment (s.updates (.render m hasBeat)) (s.render m hasBeat).2.environment := by
  have hframed : (s.frame m).IsProper := h.perform (.frame m)
  cases hasBeat with
  | false =>
    have hready := (h.frame_updated m).append (.of_vars rfl)
    exact hready.append (hframed.points_updated _)
  | true =>
    have hready := (h.frame_updated m).append (hframed.beat_updated m)
    exact hready.append ((hframed.perform (.beat m)).points_updated _)

/-- **One operation** does to the variables what its updates do, in order. -/
theorem IsProper.perform_updated (op : Operation) :
    Updated s.environment (s.updates op) (s.perform op).2.environment := by
  cases op with
  | load sources => exact .of_vars (congrArg (·.vars) (s.load_environment sources))
  | loadSources a b c d => exact .of_vars (congrArg (·.vars) (s.load_environment ⟨a, b, c, d⟩))
  | init m forced => exact h.init_updated m forced
  | frame m => exact h.frame_updated m
  | beat m => exact h.beat_updated m
  | point i => exact h.point_updated i
  | render m hasBeat => exact h.render_updated m hasBeat
  | setVar name value => exact .set s.environment name value
  | writeShared | clearShared => exact .of_vars rfl

/-- A run does to the variables what its updates do, in order. -/
theorem IsProper.performAll_updated (ops : List Operation) :
    Updated s.environment (s.updatesOfRun ops) (s.performAll ops).environment := by
  induction ops generalizing s with
  | nil => exact .of_vars rfl
  | cons op rest ih => exact (h.perform_updated op).append (ih (h.perform op))

private theorem IsProper.pointStarts_noCapitals (henv : s.environment.vars.NoCapitals)
    (samples : List Nat) : ∀ start ∈ s.pointStarts samples, start.environment.vars.NoCapitals := by
  induction samples generalizing s with
  | nil => exact List.forall_mem_nil _
  | cons i rest ih =>
    refine List.forall_mem_cons.mpr ⟨(s.pointStart_updated i).noCapitals henv, ?_⟩
    exact ih (h.perform (.point i)) ((h.point_updated i).noCapitals henv)

/-- No script of an operation starts with a variable that has a capital letter. -/
private theorem IsProper.starts_noCapitals (henv : s.environment.vars.NoCapitals) (op : Operation) :
    ∀ start ∈ s.starts op, start.environment.vars.NoCapitals := by
  have hframe (m : Moment) : (s.frameStart m).vars.NoCapitals :=
    (s.seed_updated m false).noCapitals henv
  cases op with
  | init m forced => exact List.forall_mem_singleton.mpr ((s.initStart_updated m).noCapitals henv)
  | frame m => exact List.forall_mem_singleton.mpr (hframe m)
  | beat m => exact List.forall_mem_singleton.mpr ((s.seed_updated m true).noCapitals henv)
  | point i => exact h.pointStarts_noCapitals henv [i]
  -- a render starts its scripts one after another, each from where the last one ended
  | render m hasBeat =>
    have hframed : (s.frame m).IsProper := h.perform (.frame m)
    have hsmall := (h.frame_updated m).noCapitals henv
    refine List.forall_mem_cons.mpr ⟨hframe m, ?_⟩
    cases hasBeat with
    | false => exact hframed.pointStarts_noCapitals hsmall _
    | true =>
      have hready := (hframed.beat_updated m).noCapitals hsmall
      refine List.forall_mem_cons.mpr ⟨((s.frame m).seed_updated m true).noCapitals hsmall, ?_⟩
      exact (hframed.perform (.beat m)).pointStarts_noCapitals hready _
  | load | loadSources | setVar | writeShared | clearShared => exact List.forall_mem_nil _

end IsProper

/-- **One map of variables.** Whatever a host does with an environment or with a scope, and whatever
the scripts are, no variable is ever stored by a name with a capital letter, neither afterwards nor
while a script runs. So a host finds under a name in any letter case what was last set under any
spelling of it, a script finds and sets the same variables by the names that it was compiled with,
and there are as many variables as names, up to letter case, that were set since all were last
forgotten. -/
theorem one_map_of_run :
    (∀ seed shared actions,
      let start := Environment.new seed shared
      let env := start.actAll actions
      OneMap env (start.updatesOfRun actions) ∧
        ∀ source, (Script.compile source).program.SharesNames env) ∧
      ∀ c shared ops,
        let start := Scope.new c shared
        let s := start.performAll ops
        OneMap s.environment (start.updatesOfRun ops) ∧
          (∀ name, s.var? name = lastSet? (start.updatesOfRun ops) name) ∧
          (∀ stored name value, Text.fold name = stored →
            (s.setVar name value).environment = s.environment.write stored value) ∧
          ∀ op, ∀ start ∈ s.starts op, (s.program start.phase).SharesNames start.environment := by
  constructor
  · intro seed shared actions start env
    have hmap : OneMap env (start.updatesOfRun actions) := (start.actAll_updated actions).oneMap rfl
    exact ⟨hmap, fun source =>
      Script.Program.sharesNames (Script.compile_proper source).1 hmap.noCapitals⟩
  · intro c shared ops start s
    have hstart : start.IsProper := new_isProper c shared
    have hmap : OneMap s.environment (start.updatesOfRun ops) :=
      (hstart.performAll_updated ops).oneMap rfl
    have hproper : s.IsProper := hstart.performAll ops
    refine ⟨hmap, hmap.get?, ?_, fun op begun hbegun => ?_⟩
    · rintro _ name value rfl
      rfl
    · -- what runs was compiled, so its names are small letters already
      exact Script.Program.sharesNames (hproper begun.phase)
        (hproper.starts_noCapitals hmap.noCapitals op begun hbegun)

/-- A variable that hosts and scripts spell in different ways, and one that is forgotten. -/
theorem one_map_of_run_speed :
    let env := (Environment.new 0 .empty).actAll
      [.set "Level" 1, .clearVariables, .set "SPEED" 1, .set "Speed" 2]
    let program := (Script.compile "SPEED = Speed").program
    let s := (Scope.new {} .empty).performAll [.setVar "Speed" 2]
    let m : Moment := ⟨0, 640, 480⟩
    (env.get "sPeeD" 0 = 2 ∧ env.contains "LEVEL" = false ∧ env.vars.size = 1) ∧
      ((.var "speed", env) ∈ program.visits env ∧ Text.fold "SPEED" = Text.fold "speed" ∧
        env.read "speed" = env.get "SPEED" 0) ∧
      s.var? "SPEED" = some 2 ∧
      (Text.fold "SpeeD" = "speed" ∧
        (s.setVar "SpeeD" 3).environment = s.environment.write "speed" 3) ∧
      ⟨.frame, s.frameStart m⟩ ∈ s.starts (.frame m) ∧ (s.frameStart m).vars.NoCapitals := by
  intro env program s m
  let us : List Update := [.set "Level" 1, .clear, .set "SPEED" 1, .set "Speed" 2]
  obtain ⟨henvironments, hscopes⟩ := one_map_of_run
  obtain ⟨hmap, hprograms⟩ : OneMap env us ∧ _ := henvironments 0 .empty
    [.set "Level" 1, .clearVariables, .set "SPEED" 1, .set "Speed" 2]
  obtain ⟨-, hvar, hset, hstarts⟩ := hscopes {} .empty [.setVar "Speed" 2]
  have hspeed : lastSet? us "sPeeD" = some 2 := by cbv
  have hlevel : lastSet? us "LEVEL" = none := by cbv
  have hcard : (Script.setNames us).card = 1 := by cbv
  have hhost : lastSet? [.set "Speed" 2] "SPEED" = some 2 := by cbv
  have hprogram : program = .listed [.assign "speed" (.var "speed")] := by
    change (Script.compile "SPEED = Speed").program = _
    cbv
  have hvisits (env : Environment) : program.visits env =
      [(.assignVar "speed" (.var "speed"), env), (.var "speed", env)] := by
    rw [hprogram]
    rfl
  have hvisit : (.var "speed", env) ∈ program.visits env := by
    rw [hvisits]
    exact List.mem_cons_of_mem _ (List.mem_singleton_self _)
  have hspelled : Text.fold "SPEED" = Text.fold "speed" := Text.fold_eq_fold (by decide +kernel)
  have hfold : Text.fold "SpeeD" = "speed" := by decide +kernel
  refine ⟨⟨?_, ?_, hmap.size.trans hcard⟩,
    ⟨hvisit, hspelled, ((hprograms "SPEED = Speed").visits _ hvisit).2 "SPEED" hspelled⟩,
    (hvar "SPEED").trans hhost, ⟨hfold, hset "speed" "SpeeD" 3 hfold⟩, List.mem_singleton_self _,
    (hstarts (.frame m) _ (List.mem_singleton_self _)).starts⟩
  · rw [hmap.get, hspeed, Option.getD_some]
  · rw [hmap.contains, hlevel, Option.isSome_none]

end Scope

end PointScope

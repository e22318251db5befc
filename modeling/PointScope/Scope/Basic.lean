import PointScope.Scope.Config
import PointScope.Scope.Log
import PointScope.Script.Evaluation
import PointScope.Script.Parser
import PointScope.Text.Basic

/-!
# Scopes

A scope holds one compiled script for each phase and the environment they run in, and turns them
into points. A host loads the scripts, calls `init` once, then `frame` for every frame, `beat`
after it when there is one, and `point` for every sample; `render` does all that makes one frame.

Before the scripts of the first three phases run, `seed` sets the variables by which a script
knows its surroundings. After them the variable `n` is read as the sample count that the script
wishes for, and set to the count it gets, which always lies in the configured range.
-/

namespace PointScope

open Script (Environment Program)

/-- A phase's script: the fingerprint of the text it was compiled from, if one was loaded, and the
program. -/
structure Slot where
  fingerprint : Option UInt64 := none
  program : Program := .empty
deriving Inhabited

/-- A scope. -/
structure Scope where
  config : Config
  environment : Environment
  slots : Phased Slot
  samples : Nat
  frameIndex : Nat
  compileCount : Nat
  log : Log LogEntry

/-- When a script runs, and on what: the time in seconds, and the width and height of the
canvas. -/
structure Moment where
  time : Float
  width : Float
  height : Float
deriving Inhabited

/-- A point: two coordinates. -/
abbrev Point := Float × Float

namespace Scope

/-- A scope without scripts that reads and writes the given shared memory. -/
def new (config : Config) (shared : Memory) : Scope :=
  let config := config.normalized
  { config
    environment := .new config.seed shared
    slots := .pure {}
    samples := config.defaultSamples
    frameIndex := 0
    compileCount := 0
    log := emptyDiagnosticLog }

/-! ### Loading -/

/-- Compiles the script of one phase, and logs what was wrong with it. -/
def compilePhase (s : Scope) (phase : Phase) (source : String) : Scope :=
  let compiled := Script.compile source
  { s with
    slots := s.slots.set phase ⟨some (Text.fingerprint source), compiled.program⟩
    compileCount := s.compileCount + 1
    log := s.log.pushAll (compiled.diagnostics.map (⟨phase, ·⟩)) }

/-- Loads the script of one phase, and says whether it had to be compiled: a text with the
fingerprint of the one that is loaded is not compiled again. -/
def loadPhase (s : Scope) (phase : Phase) (source : String) : Bool × Scope :=
  if (s.slots.get phase).fingerprint = some (Text.fingerprint source) then (false, s)
  else (true, s.compilePhase phase source)

/-- Loads the scripts of some phases, and counts those that had to be compiled. -/
def loadPhases (s : Scope) (sources : Phased String) : List Phase → Nat × Scope
  | [] => (0, s)
  | phase :: rest =>
    let (compiled, s) := s.loadPhase phase (sources.get phase)
    let (count, s) := s.loadPhases sources rest
    (count + compiled.toNat, s)

/-- Loads the scripts of all phases, and counts those that had to be compiled. -/
def load (s : Scope) (sources : Phased String) : Nat × Scope := s.loadPhases sources Phase.all

/-- Loads texts, each for its phase, and counts those that had to be compiled. -/
def loadEach (s : Scope) : List (String × Phase) → Nat × Scope
  | [] => (0, s)
  | (source, phase) :: rest =>
    let (compiled, s) := s.loadPhase phase source
    let (count, s) := s.loadEach rest
    (count + compiled.toNat, s)

/-- Loads the four scripts from their texts, and counts those that had to be compiled. -/
def loadSources (s : Scope) (init frame beat point : String) : Nat × Scope :=
  s.loadEach ([init, frame, beat, point].zip Phase.all)

/-- It makes no difference in which of the two ways the four texts are handed over. -/
theorem loadSources_eq_load (s : Scope) (init frame beat point : String) :
    s.loadSources init frame beat point = s.load ⟨init, frame, beat, point⟩ := rfl

/-! ### Variables of the host -/

/-- Sets a variable that scripts can read. -/
def setVar (s : Scope) (name : String) (value : Float) : Scope :=
  { s with environment := s.environment.set name value }

/-- The value of a variable, if it is set. -/
def var? (s : Scope) (name : String) : Option Float := s.environment.get? name

/-- The program of a phase. -/
def program (s : Scope) (phase : Phase) : Program := (s.slots.get phase).program

/-! ### Running -/

/-- The circle number. -/
def pi : Float := Float.ofBits 0x400921FB54442D18

/-- Sets the variables by which a script knows when and where it runs. -/
def seed (s : Scope) (m : Moment) (beat : Bool) : Scope :=
  let seeded : List (String × Float) :=
    [("t", m.time), ("time", m.time), ("w", m.width), ("h", m.height),
      ("n", Float.ofNat s.samples), ("pi", pi), ("beat", Script.truth beat),
      ("frame", Float.ofNat s.frameIndex)]
  { s with
    environment := seeded.foldl (fun env (name, value) => env.write name value) s.environment }

/-- Runs the script of a phase. -/
def run (s : Scope) (phase : Phase) : Scope :=
  { s with environment := (s.program phase).run s.environment }

/-- The sample count that the variable `n` asks for, held in the configured range. -/
def requestedSamples (s : Scope) : Nat :=
  s.config.clamp (Binary64.toCount (s.environment.get "n" (Float.ofNat s.samples)))

/-- Settles on a sample count and lets scripts know it. -/
def settle (s : Scope) (samples : Nat) : Scope :=
  { s with
    samples
    environment := s.environment.write "n" (Float.ofNat samples) }

/-- Sets a variable to `0` if it is not set. -/
def ensureVar (s : Scope) (name : String) : Scope :=
  if s.environment.contains name then s
  else { s with environment := s.environment.write name 0 }

/-- Forgets all variables, runs the `init` script and settles on a sample count: the forced one
if there is one, otherwise the one in `n`. -/
def init (s : Scope) (m : Moment) (forced : Option Nat) : Scope :=
  let s := { s with environment := s.environment.clearVariables }
  let s := (s.seed m false).run .init
  let s := s.settle <|
    match forced with
    | some n => s.config.clamp n
    | none => s.requestedSamples
  (s.ensureVar "x").ensureVar "y"

/-- Runs the `frame` script and counts the frame. -/
def frame (s : Scope) (m : Moment) : Scope :=
  let s := (s.seed m false).run .frame
  let s := s.settle s.requestedSamples
  { s with frameIndex := s.frameIndex + 1 }

/-- Runs the `beat` script. -/
def beat (s : Scope) (m : Moment) : Scope :=
  let s := (s.seed m true).run .beat
  s.settle s.requestedSamples

/-- A coordinate as it is reported: `0` if it is not finite. -/
def coordinate (v : Float) : Float := if v.isFinite then v else 0

/-- Runs the `point` script for sample `i`; the point is what it leaves in `x` and `y`. -/
def point (s : Scope) (i : Nat) : Point × Scope :=
  let s := { s with environment := s.environment.write "i" (Float.ofNat i) }
  let s := s.run .point
  ((coordinate (s.environment.get "x" 0), coordinate (s.environment.get "y" 0)), s)

/-- Runs the `point` script for samples in order, and adds the points to a buffer. -/
def pointsOnto (s : Scope) (buffer : Array Point) (samples : List Nat) : Array Point × Scope :=
  samples.foldl
    (fun (out, s) i =>
      let (p, s) := s.point i
      (out.push p, s))
    (buffer, s)

/-- Runs the `point` script for samples in order, and collects the points. -/
def points (s : Scope) (samples : List Nat) : Array Point × Scope := s.pointsOnto #[] samples

/-- Renders a frame into a buffer: the `frame` script, the `beat` script if there is a beat, and a
point for every sample. What the buffer held before is dropped. -/
def renderInto (s : Scope) (m : Moment) (hasBeat : Bool) (buffer : Array Point) :
    Array Point × Scope :=
  let s := s.frame m
  let s := if hasBeat then s.beat m else s
  s.pointsOnto (buffer.shrink 0) (List.range s.samples)

/-- Renders a frame into a buffer of its own. -/
def render (s : Scope) (m : Moment) (hasBeat : Bool) : Array Point × Scope :=
  s.renderInto m hasBeat #[]

/-- A summary of a scope for a developer. -/
def summary (s : Scope) : String :=
  "SuperscopeVm \x7b samples: " ++ toString s.samples ++
    ", frame_index: " ++ toString s.frameIndex ++
    ", compile_count: " ++ toString s.compileCount ++
    ", variables: " ++ toString s.environment.vars.size ++ " \x7d"

end Scope

end PointScope

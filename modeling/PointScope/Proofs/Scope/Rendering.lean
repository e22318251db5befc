import PointScope.Proofs.Runs
import PointScope.Proofs.Scope.FrameNumber

/-!
# Rendering a frame

To render a frame is to carry out `frame`, then `beat` if there is a beat, and then `point` for
every sample, and to keep what the points answer (`renderInto_steps`). The loop over the samples
runs scripts that may set any variable, `n` among them, and write any cell. None of that reaches the
sample count while points are made (`points_samples`), so there are as many points at the end as
there were samples at the start. What a buffer held before does not matter (`renderInto_eq`).

Between the seeding of `beat` and a `point` script only the scripts of the frame can set it. If none
of them does, every point of a rendered frame is told whether there is a beat.
-/

namespace PointScope

namespace Scope

/-! ### The loop over the samples -/

section Points

variable (s : Scope)

/-- Making points leaves the scope as the same operations one by one. -/
theorem pointsOnto_snd (buffer : Array Point) (samples : List Nat) :
    (s.pointsOnto buffer samples).2 = s.performAll (samples.map .point) := by
  induction samples generalizing s buffer with
  | nil => rfl
  | cons i rest ih => exact ih (s.point i).2 (buffer.push (s.point i).1)

/-- The points that are added are what the same operations one by one answer. -/
theorem pointsOnto_fst (buffer : Array Point) (samples : List Nat) :
    (s.pointsOnto buffer samples).1.toList.map Answer.point =
      buffer.toList.map Answer.point ++ (trace perform s (samples.map .point)).map Prod.fst := by
  induction samples generalizing s buffer with
  | nil => exact (List.append_nil _).symm
  | cons i rest ih =>
    have hrest := ih (s.point i).2 (buffer.push (s.point i).1)
    rw [Array.toList_push, List.map_append, List.append_assoc] at hrest
    exact hrest

/-- There is a point for each sample. -/
private theorem size_points (samples : List Nat) :
    (s.points samples).1.size = samples.length := by
  have hlength := congrArg List.length (s.pointsOnto_fst #[] samples)
  rwa [List.length_map, Array.length_toList, Array.toList_empty, List.map_nil, List.nil_append,
    List.length_map, length_trace, List.length_map] at hlength

/-- What a buffer held before does not matter to the frame that is rendered into it. -/
theorem renderInto_eq (m : Moment) (hasBeat : Bool) (buffer : Array Point) :
    s.renderInto m hasBeat buffer = s.render m hasBeat := by
  have hempty : buffer.shrink 0 = #[] := by simp
  rw [render, renderInto, hempty]
  rfl

/-- A coordinate that is reported is finite. -/
theorem isFinite_coordinate (v : Float) : (coordinate v).isFinite := by
  rw [coordinate]
  split
  · assumption
  · decide

/-- Every point of a rendered frame is finite. -/
theorem isFinite_of_mem_render {m : Moment} {hasBeat : Bool} {p : Point}
    (hp : p ∈ (s.render m hasBeat).1) : p.1.isFinite ∧ p.2.isFinite := by
  rw [← Array.mem_toList_iff, render_eq] at hp
  obtain ⟨start, -, rfl⟩ := List.mem_map.mp hp
  exact ⟨isFinite_coordinate _, isFinite_coordinate _⟩

end Points

/-! ### What the points are told -/

section Vars

variable {s : Scope} {x : String}

/-- Points leave a variable that their script nowhere sets. -/
private theorem performAll_point_var (h : (s.program .point).NeverSets x) (hx : "i" ≠ x)
    (samples : List Nat) :
    (s.performAll (samples.map .point)).environment.vars.get? x = s.environment.vars.get? x := by
  induction samples generalizing s with
  | nil => rfl
  | cons i rest ih => exact (ih (s := (s.point i).2) h).trans (point_var h hx i)

/-- Before its first point, a frame shows whether there is a beat, unless a script sets `beat`. -/
private theorem ready_beat (hnever : ∀ phase, (s.program phase).NeverSets "beat") (m : Moment)
    (hasBeat : Bool) :
    (if hasBeat then (s.frame m).beat m else s.frame m).environment.vars.get? "beat" =
      some (if hasBeat then 1 else 0) := by
  cases hasBeat with
  | false => exact (frame_var (hnever .frame) (by decide) m).trans (s.seed_seeded m false).beat
  | true =>
    have hseeded := ((s.frame m).seed_seeded m true).beat
    exact (beat_var (s := s.frame m) (hnever .beat) (by decide) m).trans hseeded

/-- **Every point of a frame is told whether there is a beat**, unless a script sets `beat`. -/
private theorem pointStart_beat (hnever : ∀ phase, (s.program phase).NeverSets "beat") (m : Moment)
    (hasBeat : Bool) (k : Nat) (samples : List Nat) :
    (((if hasBeat then (s.frame m).beat m else s.frame m).performAll
      (samples.map .point)).pointStart k).vars.get? "beat" = some (if hasBeat then 1 else 0) := by
  have hready := ready_beat hnever m hasBeat
  have hpoint : ((if hasBeat then (s.frame m).beat m else s.frame m).program .point).NeverSets
      "beat" := by
    cases hasBeat <;> exact hnever .point
  generalize (if hasBeat then (s.frame m).beat m else s.frame m) = ready at hready hpoint ⊢
  -- the points before it leave `beat` as the frame and beat scripts found it
  calc ((ready.performAll (samples.map .point)).pointStart k).vars.get? "beat"
      = (ready.performAll (samples.map .point)).environment.vars.get? "beat" :=
        pointStart_var _ (by decide) k
    _ = ready.environment.vars.get? "beat" := performAll_point_var hpoint (by decide) samples
    _ = some (if hasBeat then 1 else 0) := hready

end Vars

/-- **To render a frame** is to carry out `frame`, `beat` if there is a beat, and `point` for every
sample, and to put the points into the buffer in place of what it held. There are as many points as
samples, before the first one and after the last, and all are finite.

For every sample the `point` script runs once; the point is what it leaves in `x` and `y`, and the
next one goes on from there. If no script sets `beat`, each of these runs finds there whether there
is a beat, wherever it reads it. -/
theorem renderInto_steps (c : Config) (shared : Memory) (ops : List Operation) (m : Moment)
    (hasBeat : Bool) (buffer : Array Point) :
    let s := (Scope.new c shared).performAll ops
    let ready := s.performAll (if hasBeat then [.frame m, .beat m] else [.frame m])
    let steps := (List.range ready.samples).map Operation.point
    let rendered := s.renderInto m hasBeat buffer
    (rendered.2 = ready.performAll steps ∧
        rendered.1.toList.map Answer.point = (trace perform ready steps).map Prod.fst) ∧
      (rendered.1.size = ready.samples ∧ rendered.1.size = rendered.2.samples ∧
        c.normalized.minSamples ≤ rendered.1.size ∧
        rendered.1.size ≤ c.normalized.maxSamples) ∧
      (∀ p ∈ rendered.1, p.1.isFinite ∧ p.2.isFinite) ∧
      ∀ k < ready.samples,
        let before := ready.performAll ((List.range k).map .point)
        let start := before.pointStart k
        let ended := (s.program .point).run start
        before.point k = (pointIn ended, { before with environment := ended }) ∧
          ((∀ phase, (s.program phase).NeverSets "beat") →
            start.vars.get? "beat" = some (if hasBeat then 1 else 0) ∧
              ∀ v ∈ (s.program .point).readings "beat" start, v = if hasBeat then 1 else 0) := by
  intro s ready steps rendered
  have hready : ready = if hasBeat then (s.frame m).beat m else s.frame m := by
    cases hasBeat <;> rfl
  have hrendered : rendered = ready.points (List.range ready.samples) := by
    rw [hready]
    exact s.renderInto_eq m hasBeat buffer
  have hstate : rendered.2 = ready.performAll steps := by
    rw [hrendered]
    exact ready.pointsOnto_snd #[] _
  have hpoints : rendered.1.toList.map Answer.point = (trace perform ready steps).map Prod.fst := by
    rw [hrendered]
    exact ready.pointsOnto_fst #[] _
  have hsize : rendered.1.size = ready.samples := by
    rw [hrendered, size_points, List.length_range]
  have hsamples : rendered.1.size = rendered.2.samples := by
    rw [hsize, hrendered, ready.points_samples]
  have hrange : ready.InRange := ((new_inRange c shared).performAll ops).performAll _
  have hconfig : ready.config = c.normalized :=
    (s.performAll_config _).trans ((Scope.new c shared).performAll_config ops)
  refine ⟨⟨hstate, hpoints⟩, ⟨hsize, hsamples, ?_, ?_⟩, ?_, ?_⟩
  · rw [hsize, ← hconfig]
    exact hrange.min_le_samples
  · rw [hsize, ← hconfig]
    exact hrange.samples_le_max
  · intro p hp
    have hrender : p ∈ (s.render m hasBeat).1 := by
      rw [← s.renderInto_eq m hasBeat buffer]
      exact hp
    exact s.isFinite_of_mem_render hrender
  · intro k hk before start ended
    have hprogram : ready.program .point = s.program .point := by
      rw [hready]
      cases hasBeat <;> rfl
    refine ⟨?_, fun hnever => ?_⟩
    · have hbefore : before.program .point = s.program .point :=
        (performAll_program (by simp [Operation.sources?]) ready .point).trans hprogram
      rw [point_eq, hbefore]
    · have hstart : start.vars.get? "beat" = some (if hasBeat then 1 else 0) := by
        change ((ready.performAll _).pointStart k).vars.get? "beat" = _
        rw [hready]
        exact pointStart_beat hnever m hasBeat k (List.range k)
      exact ⟨hstart, Script.Program.readings_eq (hnever .point) hstart⟩

/-- Scripts that read whether there is a beat; the one of the points sets `n`. -/
def beatReaders : Phased String := ⟨"", "", "was = beat", "x = beat; n = i"⟩

/-- A scope whose scripts read whether there is a beat. -/
def beatReader : Scope := (Scope.new {} .empty).performAll [.load beatReaders]

private theorem beatReader_neverSets (phase : Phase) :
    (beatReader.program phase).NeverSets "beat" := by
  have hprogram : beatReader.program phase = Phased.get
      ⟨.empty, .empty, .listed [.assign "was" (.var "beat")],
        .listed [.assign "x" (.var "beat"), .assign "n" (.var "i")]⟩ phase := by
    rw [beatReader, new_load_program]
    cases phase <;> cbv
  rw [hprogram]
  intro value
  cases phase <;>
    simp [Phased.get, Script.Program.nodes, Script.Program.statements, Script.Statement.nodes,
      Script.Expr.nodes]

/-- The last point of a frame with a beat, rendered over the point of another frame. -/
theorem renderInto_steps_beat :
    let m : Moment := ⟨0, 640, 480⟩
    let ready := (beatReader.frame m).beat m
    let last := ready.samples - 1
    let start := (ready.performAll ((List.range last).map .point)).pointStart last
    (∀ phase, (beatReader.program phase).NeverSets "beat") ∧ last < ready.samples ∧
      (beatReader.renderInto m true #[(3, 4)]).1.size = ready.samples ∧
      start.vars.get? "beat" = some 1 := by
  intro m ready last start
  obtain ⟨-, ⟨hsize, -, hlow, -⟩, -, hpoints⟩ := renderInto_steps {} .empty
    [.load beatReaders] m true #[(3, 4)]
  have hpos : 1 ≤ ready.samples := (Config.one_le_minSamples_normalized {}).trans (hsize ▸ hlow)
  have hlast : last < ready.samples := Nat.sub_one_lt_of_lt hpos
  obtain ⟨hstart, -⟩ := (hpoints last hlast).2 beatReader_neverSets
  exact ⟨beatReader_neverSets, hlast, hsize, hstart⟩

end Scope

end PointScope

import PointScope.Proofs.Scope.FrameNumber

/-!
# The sample count moves only on request

A script asks for a sample count by setting `n`. The scripts of `init`, `frame` and `beat` find the
count that the scope has there, as a double, and `n` is read as a count again when they are done. So
if a script does not set `n`, the count goes through a double and back, and is then held in a range
that it was in already: it stays as it is, provided that it survives the way through a double
(`requestedSamples_runIn`). All counts up to `2^53` do.

Whether an operation may move the sample count can be told from its kind and from the scripts that
the scope holds then (`Scope.Keeps`), and a run of operations none of which may move it leaves it
alone (`KeepsAll.samples_performAll`). `point` scripts may do what they like with `n`, and so may
the host.
-/

namespace PointScope

open Script (Environment)

/-- A count is the same after a way through a double. -/
def Binary64.Survives (count : Nat) : Prop := toCount (Float.ofNat count) = count

namespace Operation

/-- The phases whose scripts are asked for a sample count. -/
def asks : Operation → List Phase
  | .init _ none => [.init]
  | .frame _ => [.frame]
  | .beat _ => [.beat]
  | .render _ hasBeat => .frame :: if hasBeat then [.beat] else []
  | _ => []

/-- Whether the host forces a sample count. -/
def forces : Operation → Bool
  | .init _ (some _) => true
  | _ => false

end Operation

namespace Scope

open Binary64 (Survives)

/-- An operation is bound to keep the sample count: the host does not force one, and no script that
is asked for one sets `n`. -/
structure Keeps (s : Scope) (op : Operation) : Prop where
  forces : op.forces = false
  neverSets : ∀ phase ∈ op.asks, (s.program phase).NeverSets "n"

/-- Every operation of a run is bound to keep the sample count when its turn comes. -/
def KeepsAll (s : Scope) (ops : List Operation) : Prop :=
  ∀ before op after, ops = before ++ op :: after → (s.performAll before).Keeps op

/-! ### One script -/

/-- A count that is in the range already is not moved by clamping. -/
theorem InRange.clamp_samples {s : Scope} (h : s.InRange) :
    s.config.clamp s.samples = s.samples := by
  rw [Config.clamp, min_eq_left h.samples_le_max, max_eq_right h.min_le_samples]

section Samples

variable {s : Scope} (hrange : s.InRange) (hexact : Survives s.samples)

include hrange hexact

/-- A script that finds the sample count in `n` and does not set it asks for the count there is. -/
theorem requestedSamples_runIn {phase : Phase} (hnever : (s.program phase).NeverSets "n")
    {start : Environment} (hstart : start.vars.get? "n" = some (Float.ofNat s.samples)) :
    (s.runIn phase start).requestedSamples = s.samples := by
  have hfold : Text.fold "n" = "n" := by decide +kernel
  have hn : (s.runIn phase start).environment.get? "n" = some (Float.ofNat s.samples) := by
    rw [Environment.get?, hfold, runIn_var hnever, hstart]
  calc (s.runIn phase start).requestedSamples
      = s.config.clamp (Binary64.toCount (Float.ofNat s.samples)) := by
        rw [requestedSamples, Environment.get, hn]
        rfl
    _ = s.config.clamp s.samples := congrArg s.config.clamp hexact
    _ = s.samples := hrange.clamp_samples

/-- Without a forced count `init` keeps a count that survives, if its script does not set `n`. -/
theorem init_samples (hnever : (s.program .init).NeverSets "n") (m : Moment) :
    (s.init m none).samples = s.samples := by
  have hstart : (s.initStart m).vars.get? "n" = some (Float.ofNat s.samples) :=
    (seed_seeded _ m false).n
  rw [init_eq]
  simp only [ensureVar_samples]
  exact requestedSamples_runIn hrange hexact hnever hstart

/-- A `frame` script that does not set `n` keeps a count that survives. -/
theorem frame_samples (hnever : (s.program .frame).NeverSets "n") (m : Moment) :
    (s.frame m).samples = s.samples := by
  have hstart : (s.frameStart m).vars.get? "n" = some (Float.ofNat s.samples) :=
    (s.seed_seeded m false).n
  exact requestedSamples_runIn hrange hexact hnever hstart

/-- A `beat` script that does not set `n` keeps a count that survives. -/
theorem beat_samples (hnever : (s.program .beat).NeverSets "n") (m : Moment) :
    (s.beat m).samples = s.samples := by
  have hstart : (s.beatStart m).vars.get? "n" = some (Float.ofNat s.samples) :=
    (s.seed_seeded m true).n
  exact requestedSamples_runIn hrange hexact hnever hstart

/-! ### Operations, and runs of them -/

/-- An operation that is bound to keep the sample count keeps it. -/
theorem Keeps.samples_perform {op : Operation} (h : s.Keeps op) :
    (s.perform op).2.samples = s.samples := by
  cases op with
  | load sources => exact s.load_samples sources
  | loadSources init frame beat point => exact s.load_samples ⟨init, frame, beat, point⟩
  | init m forced =>
    cases forced with
    | none => exact init_samples hrange hexact (h.neverSets _ (List.mem_singleton_self _)) m
    | some k => exact Bool.noConfusion h.forces
  | frame m => exact frame_samples hrange hexact (h.neverSets _ (List.mem_singleton_self _)) m
  | beat m => exact beat_samples hrange hexact (h.neverSets _ (List.mem_singleton_self _)) m
  | render m hasBeat =>
    have hframe := frame_samples hrange hexact (h.neverSets _ List.mem_cons_self) m
    cases hasBeat with
    | false => exact (points_samples _ _).trans hframe
    | true =>
      have hnever : ((s.frame m).program .beat).NeverSets "n" :=
        h.neverSets _ (List.mem_cons_of_mem _ (List.mem_singleton_self _))
      -- the beat script starts from the samples that the frame script left
      have hbeat := beat_samples (hrange.frame m) (hframe.symm ▸ hexact) hnever m
      exact (points_samples _ _).trans (hbeat.trans hframe)
  | point i => rfl
  | setVar name value => rfl
  | writeShared address value => rfl
  | clearShared => rfl

/-- A run of operations that are bound to keep the sample count keeps it. -/
theorem KeepsAll.samples_performAll {ops : List Operation} (h : s.KeepsAll ops) :
    (s.performAll ops).samples = s.samples := by
  induction ops generalizing s with
  | nil => rfl
  | cons op rest ih =>
    have hstep : (s.perform op).2.samples = s.samples :=
      Keeps.samples_perform hrange hexact (h [] op rest rfl)
    have hrest : (s.perform op).2.KeepsAll rest := fun before next after heq =>
      h (op :: before) next after (congrArg (op :: ·) heq)
    exact (ih (hrange.perform op) (hstep.symm ▸ hexact) hrest).trans hstep

end Samples

/-- While no scripts are loaded, those that the scope has decide. -/
theorem KeepsAll.of_program {s : Scope} {ops : List Operation}
    (h : ∀ op ∈ ops, op.sources? = none ∧ s.Keeps op) : s.KeepsAll ops := by
  intro before op after heq
  subst heq
  induction before generalizing s with
  | nil => exact (h op (List.mem_append_right _ List.mem_cons_self)).2
  | cons first before ih =>
    refine ih fun op hop => ?_
    obtain ⟨hsources, hkeeps⟩ := h op (List.mem_cons_of_mem _ hop)
    refine ⟨hsources, hkeeps.forces, fun phase hphase => ?_⟩
    rw [perform_program (h first List.mem_cons_self).1 s]
    exact hkeeps.neverSets phase hphase

/-- A forced count is held in the configured range, whatever the `init` script does. -/
theorem init_forced_samples (s : Scope) (m : Moment) (k : Nat) :
    (s.init m (some k)).samples = s.config.clamp k := by
  rw [init_eq]
  simp only [ensureVar_samples]
  rfl

/-- **The sample count moves only on request.** In a scope that has come about in any way, `init`
without a forced count, `frame` and `beat` leave a sample count that survives the way through a
double, as all up to `2^53` do, if their script nowhere sets `n`; and so does any run of operations
none of which forces a count or has such a script set `n`. In particular the count that is forced at
`init`, held in the range, stays through any number of frames, beats and points. -/
theorem samples_move_on_request (c : Config) (shared : Memory) (ops : List Operation) :
    let s := (Scope.new c shared).performAll ops
    (∀ k ≤ 2 ^ 53, Survives k) ∧
      (Survives s.samples → ∀ m,
        ((s.program .init).NeverSets "n" → (s.init m none).samples = s.samples) ∧
        ((s.program .frame).NeverSets "n" → (s.frame m).samples = s.samples) ∧
        ((s.program .beat).NeverSets "n" → (s.beat m).samples = s.samples)) ∧
      (Survives s.samples → ∀ rest, s.KeepsAll rest → (s.performAll rest).samples = s.samples) ∧
      ∀ m k, (s.init m (some k)).samples = s.config.clamp k ∧
        (Survives (s.config.clamp k) → ∀ rest, (s.init m (some k)).KeepsAll rest →
          ((s.init m (some k)).performAll rest).samples = s.config.clamp k) := by
  intro s
  have hrange : s.InRange := (new_inRange c shared).performAll ops
  refine ⟨fun k hk => Binary64.toCount_ofNat hk, fun hexact m => ⟨?_, ?_, ?_⟩,
    fun hexact rest hkeeps => ?_, fun m k => ⟨?_, fun hexact rest hkeeps => ?_⟩⟩
  · exact fun hnever => init_samples hrange hexact hnever m
  · exact fun hnever => frame_samples hrange hexact hnever m
  · exact fun hnever => beat_samples hrange hexact hnever m
  · exact hkeeps.samples_performAll hrange hexact
  · exact s.init_forced_samples m k
  · -- what was forced is the count that the rest of the run keeps
    have hforced := s.init_forced_samples m k
    rw [← hforced] at hexact ⊢
    exact hkeeps.samples_performAll (hrange.init m (some k)) hexact

/-- Scripts of which those for `init` and for the points set `n`. -/
def countSetters : Phased String := ⟨"n = t", "wide = n + n", "wide = n", "n = i"⟩

/-- A scope two of whose scripts set `n`. -/
def countSetter : Scope := (Scope.new {} .empty).performAll [.load countSetters]

private theorem countSetter_neverSets {phase : Phase} (h : phase = .frame ∨ phase = .beat) :
    (countSetter.program phase).NeverSets "n" := by
  have hframe : (Script.compile (countSetters.get .frame)).program =
      .listed [.assign "wide" (.binary .plus (.var "n") (.var "n"))] := by cbv
  have hbeat : (Script.compile (countSetters.get .beat)).program =
      .listed [.assign "wide" (.var "n")] := by cbv
  intro value
  rw [countSetter, new_load_program]
  rcases h with rfl | rfl
  · rw [hframe]
    simp [Script.Program.nodes, Script.Program.statements, Script.Statement.nodes,
      Script.Expr.nodes]
  · rw [hbeat]
    simp [Script.Program.nodes, Script.Program.statements, Script.Statement.nodes,
      Script.Expr.nodes]

/-- A forced count outlives a frame, a beat, a point that sets `n`, and a rendered frame. -/
theorem samples_move_on_request_forced :
    let m : Moment := ⟨0, 640, 480⟩
    let forced := countSetter.init m (some 300)
    let rest : List Operation := [.frame m, .beat m, .point 7, .render m true]
    Survives 300 ∧ forced.KeepsAll rest ∧ (forced.performAll rest).samples = 300 := by
  intro m forced rest
  obtain ⟨hexact, -, -, hforced⟩ := samples_move_on_request {} .empty [.load countSetters]
  have hclamp : countSetter.config.clamp 300 = 300 := by rfl
  have hsources : (Operation.init m (some 300)).sources? = none := rfl
  have hprogram : ∀ phase, forced.program phase = countSetter.program phase :=
    perform_program hsources countSetter
  have hasks : ∀ op ∈ rest, op.sources? = none ∧ op.forces = false ∧
      ∀ phase ∈ op.asks, phase = .frame ∨ phase = .beat := by decide
  have hkeeps : forced.KeepsAll rest := .of_program fun op hop => by
    obtain ⟨hsources, hforces, hphases⟩ := hasks op hop
    refine ⟨hsources, hforces, fun phase hphase => ?_⟩
    rw [hprogram]
    exact countSetter_neverSets (hphases phase hphase)
  have hsurvives : Survives 300 := hexact 300 (by decide)
  have hstays := (hforced m 300).2 (hclamp.symm ▸ hsurvives) rest hkeeps
  exact ⟨hsurvives, hkeeps, hstays.trans hclamp⟩

end Scope

end PointScope

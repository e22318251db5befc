import PointScope.Proofs.Scope.SampleCount

/-!
# Scopes that behave alike

Two scopes *agree* if they are equal but for how they came to their programs: the fingerprints of
the texts that were compiled, how many were, and what was logged. No operation but loading looks at
these, so scopes that agree answer every other operation alike and agree again afterwards
(`Scope.Agrees.perform`). Loading changes nothing else (`Scope.load_snd`), and so two runs agree as
soon as their loads leave the same programs.
-/

namespace PointScope

/-- What an answer says about a scope's pictures: all but how many scripts were compiled. -/
def Answer.withoutCount : Answer → Answer
  | .compiled _ => .none
  | answer => answer

namespace Scope

/-! ### Agreement -/

/-- Equal but for the fingerprints of the scripts, the count of compilations and the log. -/
structure Agrees (s s' : Scope) : Prop where
  config : s.config = s'.config
  environment : s.environment = s'.environment
  samples : s.samples = s'.samples
  frameIndex : s.frameIndex = s'.frameIndex
  program : ∀ phase, s.program phase = s'.program phase

namespace Agrees

variable {s s' : Scope} (h : s.Agrees s')

theorem refl (s : Scope) : s.Agrees s := ⟨rfl, rfl, rfl, rfl, fun _ => rfl⟩

include h

private theorem withEnvironment {f g : Script.Environment} (hfg : f = g) :
    Agrees { s with environment := f } { s' with environment := g } :=
  ⟨h.config, hfg, h.samples, h.frameIndex, h.program⟩

/-- A host finds the same under a name in any letter case. -/
theorem var? {x y : String} (hxy : Text.fold x = Text.fold y) : s.var? x = s'.var? y := by
  rw [var?_eq, var?_eq, h.environment, hxy]

theorem setVar {x y : String} (hxy : Text.fold x = Text.fold y) (value : Float) :
    (s.setVar x value).Agrees (s'.setVar y value) :=
  h.withEnvironment (by rw [Script.Environment.set, Script.Environment.set, h.environment, hxy])

theorem seed (m : Moment) (beat : Bool) : (s.seed m beat).Agrees (s'.seed m beat) :=
  h.withEnvironment (by rw [h.environment, h.samples, h.frameIndex])

theorem run (phase : Phase) : (s.run phase).Agrees (s'.run phase) :=
  h.withEnvironment (by rw [h.environment, h.program phase])

/-- Scripts that run alike ask for the same sample count. -/
theorem requestedSamples : s.requestedSamples = s'.requestedSamples := by
  rw [Scope.requestedSamples, Scope.requestedSamples, h.config, h.environment, h.samples]

theorem settle {k k' : Nat} (hk : k = k') : (s.settle k).Agrees (s'.settle k') := by
  subst hk
  exact ⟨h.config, congrArg (·.write "n" (Float.ofNat k)) h.environment, rfl, h.frameIndex,
    h.program⟩

theorem ensureVar (name : String) : (s.ensureVar name).Agrees (s'.ensureVar name) := by
  rw [Scope.ensureVar, Scope.ensureVar, h.environment]
  split
  · exact h
  · exact h.withEnvironment rfl

theorem clearVariables :
    Agrees { s with environment := s.environment.clearVariables }
      { s' with environment := s'.environment.clearVariables } :=
  h.withEnvironment (by rw [h.environment])

theorem init (m : Moment) (forced : Option Nat) : (s.init m forced).Agrees (s'.init m forced) := by
  have hran := (h.clearVariables.seed m false).run .init
  unfold Scope.init
  refine (hran.settle ?_).ensureVar "x" |>.ensureVar "y"
  cases forced with
  | none => exact hran.requestedSamples
  | some k => exact congrArg (Config.clamp · k) h.config

theorem frame (m : Moment) : (s.frame m).Agrees (s'.frame m) := by
  have hran := (h.seed m false).run .frame
  have hsettled := hran.settle hran.requestedSamples
  exact ⟨hsettled.config, hsettled.environment, hsettled.samples,
    congrArg (· + 1) hsettled.frameIndex, hsettled.program⟩

theorem beat (m : Moment) : (s.beat m).Agrees (s'.beat m) := by
  have hran := (h.seed m true).run .beat
  exact hran.settle hran.requestedSamples

theorem point (i : Nat) : (s.point i).1 = (s'.point i).1 ∧ (s.point i).2.Agrees (s'.point i).2 := by
  have hnumbered := h.withEnvironment
    (congrArg (·.write "i" (Float.ofNat i)) h.environment)
  have hran := hnumbered.run .point
  refine ⟨?_, hran⟩
  rw [Scope.point, Scope.point]
  dsimp only
  rw [hran.environment]

/-- Scopes that agree add the same points to a buffer, and agree again afterwards. -/
theorem pointsOnto (buffer : Array Point) (samples : List Nat) :
    (s.pointsOnto buffer samples).1 = (s'.pointsOnto buffer samples).1 ∧
      (s.pointsOnto buffer samples).2.Agrees (s'.pointsOnto buffer samples).2 := by
  induction samples generalizing s s' buffer with
  | nil => exact ⟨rfl, h⟩
  | cons i rest ih =>
    obtain ⟨hpoint, hnext⟩ := h.point i
    rw [Scope.pointsOnto, Scope.pointsOnto, List.foldl_cons, List.foldl_cons]
    dsimp only
    rw [hpoint]
    exact ih hnext _

/-- **Scopes that agree render the same frame**, and agree again afterwards. -/
theorem render (m : Moment) (hasBeat : Bool) :
    (s.render m hasBeat).1 = (s'.render m hasBeat).1 ∧
      (s.render m hasBeat).2.Agrees (s'.render m hasBeat).2 := by
  have hready : (if hasBeat then (s.frame m).beat m else s.frame m).Agrees
      (if hasBeat then (s'.frame m).beat m else s'.frame m) := by
    cases hasBeat with
    | false => exact h.frame m
    | true => exact (h.frame m).beat m
  rw [Scope.render, Scope.render, Scope.renderInto, Scope.renderInto, hready.samples]
  exact hready.pointsOnto _ _

end Agrees

/-! ### Operations -/

/-- A new scope has no scripts, so all that it loads is compiled. -/
theorem new_load_program (c : Config) (shared : Memory) (sources : Phased String)
    (phase : Phase) :
    ((Scope.new c shared).performAll [.load sources]).program phase =
      (Script.compile (sources.get phase)).program := by
  cases phase <;> rfl

/-- **Agreeing scopes answer alike** and agree again, whatever is done with them but to load. -/
theorem Agrees.perform {s s' : Scope} (h : s.Agrees s') {op : Operation}
    (hop : op.sources? = none) :
    (s.perform op).1 = (s'.perform op).1 ∧ (s.perform op).2.Agrees (s'.perform op).2 := by
  cases op with
  | load | loadSources => cases hop
  | init m forced => exact ⟨rfl, h.init m forced⟩
  | frame m => exact ⟨rfl, h.frame m⟩
  | beat m => exact ⟨rfl, h.beat m⟩
  | point i => exact (h.point i).imp (congrArg Answer.point) id
  | render m hasBeat => exact (h.render m hasBeat).imp (congrArg Answer.points) id
  | setVar name value => exact ⟨rfl, h.setVar rfl value⟩
  | writeShared address value =>
    exact ⟨rfl, h.withEnvironment (congrArg (·.writeCell .shared address value) h.environment)⟩
  | clearShared =>
    exact ⟨rfl, h.withEnvironment (congrArg (·.setBank .shared .empty) h.environment)⟩

end Scope

end PointScope

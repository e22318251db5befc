import PointScope.Proofs.Scope.Unchanged

/-!
# The sample count stays in its range

Whatever numbers a scope is configured with, whatever scripts it is given and whatever its host
does with it, its sample count lies between the least and the greatest count of its normalized
configuration, and these are in order. `Scope.InRange` is the invariant. No operation touches the
configuration (`Scope.perform_config`), and the count is only ever replaced by one that
`Config.clamp` returned (`InRange.settle_clamp`), so no script can break it through the variable
`n`.

After `init`, `frame` and `beat` the variable `n` holds the count that was settled on, not what
the script left there (`Scope.ShowsSamples`).
-/

namespace PointScope

/-! ### The configured range -/

namespace Config

/-- A clamped count lies in a range that is in order. -/
theorem clamp_mem {c : Config} (h : c.minSamples ≤ c.maxSamples) (k : Nat) :
    c.minSamples ≤ c.clamp k ∧ c.clamp k ≤ c.maxSamples := by
  refine ⟨Nat.le_max_left _ _, ?_⟩
  rw [clamp]
  omega

/-- In a range that is in order every count can be clamped. -/
theorem clamp?_eq_some {c : Config} (h : c.minSamples ≤ c.maxSamples) (k : Nat) :
    c.clamp? k = some (c.clamp k) := if_pos h

/-- A normalized range allows no empty picture. -/
theorem one_le_minSamples_normalized (c : Config) : 1 ≤ c.normalized.minSamples :=
  Nat.le_max_right _ _

/-- A normalized range is in order. -/
theorem normalized_minSamples_le_maxSamples (c : Config) :
    c.normalized.minSamples ≤ c.normalized.maxSamples :=
  Nat.le_max_right _ _

/-- The default of a normalized configuration is in its range. -/
theorem defaultSamples_normalized_mem (c : Config) :
    c.normalized.minSamples ≤ c.normalized.defaultSamples ∧
      c.normalized.defaultSamples ≤ c.normalized.maxSamples :=
  clamp_mem (c := { c with
    minSamples := c.normalized.minSamples, maxSamples := c.normalized.maxSamples })
    c.normalized_minSamples_le_maxSamples c.defaultSamples

end Config

namespace Scope

/-- The sample count lies in the configured range, which is in order and allows no empty
picture. -/
structure InRange (s : Scope) : Prop where
  one_le_min : 1 ≤ s.config.minSamples
  min_le_samples : s.config.minSamples ≤ s.samples
  samples_le_max : s.samples ≤ s.config.maxSamples

/-- Scripts find the sample count in the variable `n`. -/
def ShowsSamples (s : Scope) : Prop := s.var? "n" = some (Float.ofNat s.samples)

/-! ### The invariant -/

section Invariant

variable {s s' : Scope}

/-- The range of a scope is in order. -/
theorem InRange.min_le_max (h : s.InRange) : s.config.minSamples ≤ s.config.maxSamples :=
  Nat.le_trans h.min_le_samples h.samples_le_max

/-- The invariant is about the configuration and the sample count alone. -/
theorem InRange.congr (h : s.InRange) (hconfig : s'.config = s.config)
    (hsamples : s'.samples = s.samples) : s'.InRange where
  one_le_min := hconfig ▸ h.one_le_min
  min_le_samples := by rw [hconfig, hsamples]; exact h.min_le_samples
  samples_le_max := by rw [hconfig, hsamples]; exact h.samples_le_max

/-- Settling on a clamped count keeps the invariant, whatever count was asked for. -/
theorem InRange.settle_clamp (h : s.InRange) (k : Nat) :
    (s.settle (s.config.clamp k)).InRange where
  one_le_min := h.one_le_min
  min_le_samples := (Config.clamp_mem h.min_le_max k).1
  samples_le_max := (Config.clamp_mem h.min_le_max k).2

/-- A new scope has the default count of its configuration. -/
theorem new_inRange (c : Config) (shared : Memory) : (Scope.new c shared).InRange where
  one_le_min := c.one_le_minSamples_normalized
  min_le_samples := c.defaultSamples_normalized_mem.1
  samples_le_max := c.defaultSamples_normalized_mem.2

/-- The count that `init` settles on is clamped, whether it is forced or read from `n`. -/
theorem InRange.init (h : s.InRange) (m : Moment) (forced : Option Nat) :
    (s.init m forced).InRange := by
  let started := { s with environment := s.environment.clearVariables }
  let ran := (started.seed m false).run .init
  have hran : ran.InRange := h.congr rfl rfl
  -- forced or read from `n`, the new count has been clamped
  obtain ⟨k, hk⟩ : ∃ k, s.init m forced =
      ((ran.settle (ran.config.clamp k)).ensureVar "x").ensureVar "y" := by
    cases forced with
    | none => exact ⟨_, rfl⟩
    | some k => exact ⟨k, rfl⟩
  obtain ⟨_, hvars⟩ := (ran.settle (ran.config.clamp k)).ensureVars_vars "x" "y"
  rw [hk, hvars]
  exact (hran.settle_clamp k).congr rfl rfl

theorem InRange.frame (h : s.InRange) (m : Moment) : (s.frame m).InRange := by
  have hran : ((s.seed m false).run .frame).InRange := h.congr rfl rfl
  exact (hran.settle_clamp _).congr rfl rfl

theorem InRange.beat (h : s.InRange) (m : Moment) : (s.beat m).InRange := by
  have hran : ((s.seed m true).run .beat).InRange := h.congr rfl rfl
  exact hran.settle_clamp _

/-- Points leave the sample count alone. -/
theorem InRange.points (h : s.InRange) (samples : List Nat) : (s.points samples).2.InRange := by
  obtain ⟨_, hpoints⟩ := s.points_environment samples
  rw [hpoints]
  exact h.congr rfl rfl

theorem InRange.render (h : s.InRange) (m : Moment) (hasBeat : Bool) :
    (s.render m hasBeat).2.InRange := by
  cases hasBeat with
  | false => exact (h.frame m).points _
  | true => exact ((h.frame m).beat m).points _

theorem InRange.load (h : s.InRange) (sources : Phased String) : (s.load sources).2.InRange := by
  obtain ⟨_, _, _, hload⟩ := s.load_snd sources
  rw [hload]
  exact h.congr rfl rfl

/-- One operation keeps the invariant. -/
theorem InRange.perform (h : s.InRange) (op : Operation) : (s.perform op).2.InRange := by
  cases op with
  | load sources => exact h.load sources
  | loadSources init frame beat point => exact h.load ⟨init, frame, beat, point⟩
  | init m forced => exact h.init m forced
  | frame m => exact h.frame m
  | beat m => exact h.beat m
  | point i => exact h.congr rfl rfl
  | render m hasBeat => exact h.render m hasBeat
  | setVar name value => exact h.congr rfl rfl
  | writeShared address value => exact h.congr rfl rfl
  | clearShared => exact h.congr rfl rfl

/-- A run of operations keeps the invariant. -/
theorem InRange.performAll (h : s.InRange) (ops : List Operation) : (s.performAll ops).InRange := by
  induction ops generalizing s with
  | nil => exact h
  | cons op ops ih => exact ih (h.perform op)

end Invariant

/-! ### The variable `n` -/

section ShowsSamples

variable (s : Scope)

/-- A host finds a variable by its name in small letters. -/
theorem var?_eq (name : String) : s.var? name = s.environment.vars.get? (Text.fold name) := rfl

/-- A count that is settled on is shown to scripts. -/
theorem settle_showsSamples (k : Nat) : (s.settle k).ShowsSamples := by
  have hfold : Text.fold "n" = "n" := by decide +kernel
  rw [ShowsSamples, var?_eq, hfold]
  exact (Script.Variables.get?_set _ _ _ _).trans (if_pos rfl)

/-- Making sure of a variable other than `n` leaves `n` alone. -/
theorem ShowsSamples.ensureVar {s : Scope} (h : s.ShowsSamples) {name : String}
    (hname : name ≠ "n") : (s.ensureVar name).ShowsSamples := by
  have hfold : Text.fold "n" = "n" := by decide +kernel
  unfold Scope.ensureVar
  split
  · exact h
  · rw [ShowsSamples, var?_eq, hfold] at h ⊢
    exact ((Script.Variables.get?_set _ _ _ _).trans (if_neg hname)).trans h

theorem init_showsSamples (m : Moment) (forced : Option Nat) : (s.init m forced).ShowsSamples :=
  ((settle_showsSamples _ _).ensureVar (by decide)).ensureVar (by decide)

theorem frame_showsSamples (m : Moment) : (s.frame m).ShowsSamples := settle_showsSamples _ _

theorem beat_showsSamples (m : Moment) : (s.beat m).ShowsSamples := settle_showsSamples _ _

end ShowsSamples

/-- **The sample count of a scope.** From any configuration and through any operations, the
sample count stays in the configured range, the default count and every other count can be
clamped to that range, and `n` is the sample count whenever `init`, `frame` or `beat` has just
run. -/
theorem samples_inRange_of_run (c : Config) (shared : Memory) (ops : List Operation) :
    let s := (Scope.new c shared).performAll ops
    (1 ≤ s.config.minSamples ∧ s.config.minSamples ≤ s.samples ∧
        s.samples ≤ s.config.maxSamples) ∧
      (s.config = c.normalized ∧
        c.normalized.clamp? c.defaultSamples = some c.normalized.defaultSamples ∧
        ∀ k, s.config.clamp? k = some (s.config.clamp k)) ∧
      ∀ m, (∀ forced, (s.init m forced).ShowsSamples) ∧ (s.frame m).ShowsSamples ∧
        (s.beat m).ShowsSamples := by
  intro s
  -- every operation keeps the count in range
  have h : s.InRange := (new_inRange c shared).performAll ops
  have hconfig : s.config = c.normalized := (Scope.new c shared).performAll_config ops
  refine ⟨⟨h.one_le_min, h.min_le_samples, h.samples_le_max⟩, ⟨hconfig, ?_, ?_⟩, fun m => ?_⟩
  · exact Config.clamp?_eq_some c.normalized_minSamples_le_maxSamples c.defaultSamples
  · exact Config.clamp?_eq_some h.min_le_max
  · exact ⟨s.init_showsSamples m, s.frame_showsSamples m, s.beat_showsSamples m⟩

end Scope

end PointScope

import PointScope.Scope.Operation

/-!
# What operations leave alone

Each lemma says of an operation which parts of a scope it may change at all: the scope afterwards is
the one before with new values for these. Loading changes the slots, the count of compilations and
the log (`Scope.load_snd`), rendering points the environment (`Scope.points_environment`), and every
operation but loading the environment, the sample count and the number of the frame
(`Scope.perform_snd`). So nothing changes the configuration (`Scope.performAll_config`).
-/

namespace PointScope

/-- The texts that an operation loads, if it loads any. -/
def Operation.sources? : Operation → Option (Phased String)
  | .load sources => some sources
  | .loadSources a b c d => some ⟨a, b, c, d⟩
  | _ => none

namespace Scope

/-! ### Loading -/

section Load

variable (s : Scope)

/-- Loading changes the slots, the count of compilations and the log. -/
private theorem loadPhases_snd (sources : Phased String) (phases : List Phase) :
    ∃ slots count log, (s.loadPhases sources phases).2 =
      { s with slots := slots, compileCount := count, log := log } := by
  induction phases generalizing s with
  | nil => exact ⟨s.slots, s.compileCount, s.log, rfl⟩
  | cons phase rest ih =>
    obtain ⟨slots, count, log, hrest⟩ := ih (s.loadPhase phase (sources.get phase)).2
    refine ⟨slots, count, log, ?_⟩
    rw [loadPhases]
    dsimp only
    -- whether this phase was compiled does not matter: what it changed is replaced by the rest
    rw [hrest, loadPhase]
    split <;> rfl

/-- **Loading changes nothing else**: not the variables, the memories or the random stream, and
neither the sample count nor the number of the frame. -/
theorem load_snd (sources : Phased String) :
    ∃ slots count log, (s.load sources).2 =
      { s with slots := slots, compileCount := count, log := log } :=
  s.loadPhases_snd sources Phase.all

theorem load_environment (sources : Phased String) :
    (s.load sources).2.environment = s.environment := by
  obtain ⟨_, _, _, hload⟩ := s.load_snd sources
  rw [hload]

theorem load_samples (sources : Phased String) : (s.load sources).2.samples = s.samples := by
  obtain ⟨_, _, _, hload⟩ := s.load_snd sources
  rw [hload]

theorem load_frameIndex (sources : Phased String) :
    (s.load sources).2.frameIndex = s.frameIndex := by
  obtain ⟨_, _, _, hload⟩ := s.load_snd sources
  rw [hload]

end Load

/-- Both ways to load are one. -/
theorem perform_of_sources? {op : Operation} {sources : Phased String}
    (hop : op.sources? = some sources) (s : Scope) :
    s.perform op = (.compiled (s.load sources).1, (s.load sources).2) := by
  cases op with
  | load => cases hop; rfl
  | loadSources => cases hop; rfl
  | _ => cases hop

/-! ### Running -/

/-- Making sure of a variable changes the variables. -/
private theorem ensureVar_vars (s : Scope) (name : String) :
    ∃ vars, s.ensureVar name = { s with environment := { s.environment with vars := vars } } := by
  rw [ensureVar]
  split <;> exact ⟨_, rfl⟩

/-- Making sure of one variable and then of another changes the variables. -/
theorem ensureVars_vars (s : Scope) (name name' : String) :
    ∃ vars, (s.ensureVar name).ensureVar name' =
      { s with environment := { s.environment with vars := vars } } := by
  obtain ⟨vars, h⟩ := s.ensureVar_vars name
  obtain ⟨vars', h'⟩ := (s.ensureVar name).ensureVar_vars name'
  refine ⟨vars', ?_⟩
  rw [h', h]

@[simp]
theorem ensureVar_samples (s : Scope) (name : String) :
    (s.ensureVar name).samples = s.samples := by
  obtain ⟨_, h⟩ := s.ensureVar_vars name
  rw [h]

/-- Rendering points leaves the scope that the `point` scripts, run in order, leave. -/
theorem points_snd (s : Scope) (samples : List Nat) :
    (s.points samples).2 = samples.foldl (fun s i => (s.point i).2) s := by
  -- the points that are collected do not matter, so they may be any
  have key : ∀ (out : Array Point) (s : Scope),
      (samples.foldl (fun (acc : Array Point × Scope) i =>
        (acc.1.push (acc.2.point i).1, (acc.2.point i).2)) (out, s)).2 =
      samples.foldl (fun s i => (s.point i).2) s := by
    induction samples with
    | nil => exact fun _ _ => rfl
    | cons i rest ih => exact fun out s => ih _ _
  exact key #[] s

/-- Rendering points changes the environment. -/
theorem points_environment (s : Scope) (samples : List Nat) :
    ∃ environment, (s.points samples).2 = { s with environment := environment } := by
  rw [points_snd]
  induction samples generalizing s with
  | nil => exact ⟨s.environment, rfl⟩
  | cons i rest ih => exact ih (s.point i).2

/-- However many points are rendered, there are as many samples as before. -/
theorem points_samples (s : Scope) (samples : List Nat) :
    (s.points samples).2.samples = s.samples := by
  obtain ⟨_, h⟩ := s.points_environment samples
  rw [h]

/-! ### Any operation -/

/-- **Only loading touches the scripts**, the count of compilations and the log, and nothing touches
the configuration. -/
theorem perform_snd {op : Operation} (hop : op.sources? = none) (s : Scope) :
    ∃ environment samples frameIndex, (s.perform op).2 =
      { s with environment := environment, samples := samples, frameIndex := frameIndex } := by
  cases op with
  | load | loadSources => cases hop
  | init m forced =>
    let ran := (Scope.seed { s with environment := s.environment.clearVariables } m false).run .init
    obtain ⟨k, hk⟩ : ∃ k, (s.perform (.init m forced)).2 =
      ((ran.settle k).ensureVar "x").ensureVar "y" := ⟨_, rfl⟩
    obtain ⟨vars, hvars⟩ := (ran.settle k).ensureVars_vars "x" "y"
    exact ⟨_, _, _, hk.trans hvars⟩
  | render m hasBeat =>
    cases hasBeat with
    | false =>
      obtain ⟨environment, h⟩ := (s.frame m).points_environment (List.range (s.frame m).samples)
      exact ⟨_, _, _, h⟩
    | true =>
      obtain ⟨environment, h⟩ :=
        ((s.frame m).beat m).points_environment (List.range ((s.frame m).beat m).samples)
      exact ⟨_, _, _, h⟩
  | _ => exact ⟨_, _, _, rfl⟩

/-- An operation that loads nothing leaves every program. -/
theorem perform_program {op : Operation} (hop : op.sources? = none) (s : Scope) (phase : Phase) :
    (s.perform op).2.program phase = s.program phase := by
  obtain ⟨_, _, _, hnext⟩ := perform_snd hop s
  rw [hnext]
  rfl

/-- Scripts stay what they are until others are loaded. -/
theorem performAll_program {ops : List Operation} (hops : ∀ op ∈ ops, op.sources? = none)
    (s : Scope) (phase : Phase) : (s.performAll ops).program phase = s.program phase := by
  induction ops generalizing s with
  | nil => rfl
  | cons op rest ih =>
    obtain ⟨hop, hrest⟩ := List.forall_mem_cons.mp hops
    exact (ih hrest _).trans (perform_program hop s phase)

/-- No operation touches the configuration. -/
theorem perform_config (s : Scope) (op : Operation) : (s.perform op).2.config = s.config := by
  cases hop : op.sources? with
  | none =>
    obtain ⟨_, _, _, hnext⟩ := perform_snd hop s
    rw [hnext]
  | some sources =>
    obtain ⟨_, _, _, hload⟩ := s.load_snd sources
    rw [perform_of_sources? hop, hload]

/-- A scope keeps the configuration that it was made with. -/
theorem performAll_config (s : Scope) (ops : List Operation) :
    (s.performAll ops).config = s.config := by
  induction ops generalizing s with
  | nil => rfl
  | cons op ops ih => exact (ih _).trans (s.perform_config op)

end Scope

end PointScope

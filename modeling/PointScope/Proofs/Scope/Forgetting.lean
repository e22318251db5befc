import PointScope.Proofs.Scope.RandomStream

/-!
# What a scope forgets

Only `init` removes variables, and it removes them all: its script starts with the seeded variables
and no others, so what the variables were before cannot be told from the scope that it leaves
(`init_forgets`). Every other operation keeps the variables that are set (`Defines.perform`). The
eight seeded variables and the two coordinates are therefore there from the first `init` on
(`Defines.after_init`).

The memories and the random stream are not variables. `init` hands them to its script as they are,
and leaves them as the script does (`only_init_forgets`).
-/

namespace PointScope

open Script (Environment Variables)

/-- Whether an operation is `init`. -/
def Operation.isInit : Operation → Bool
  | .init _ _ => true
  | _ => false

/-- The variables that are there from the first `init` on. -/
def lastingNames : List String := "x" :: "y" :: seededNames

/-- A script that has been told where it runs finds all seeded variables set. -/
theorem Seeded.isSome {env : Environment} {m : Moment} {samples frames : Nat} {beat : Bool}
    (h : Seeded env m samples frames beat) {x : String} (hx : x ∈ seededNames) :
    (env.vars.get? x).isSome := by
  simp only [seededNames, List.mem_cons, List.not_mem_nil, or_false] at hx
  rcases hx with rfl | rfl | rfl | rfl | rfl | rfl | rfl | rfl <;>
    simp [h.t, h.time, h.w, h.h, h.n, h.pi, h.beat, h.frame]

namespace Scope

/-- The scope has a variable of that name. -/
def Defines (s : Scope) (x : String) : Prop := (s.environment.vars.get? x).isSome

/-! ### Operations that keep variables -/

section Defines

variable {s : Scope} {x : String} (h : s.Defines x)

include h

theorem Defines.seed (m : Moment) (beat : Bool) : (s.seed m beat).Defines x := by
  -- one variable after another is set
  refine List.foldlRecOn (motive := fun env : Environment => (env.vars.get? x).isSome) _ _ h ?_
  exact fun env henv entry _ => Environment.isSome_write henv entry.1 entry.2

theorem Defines.run (phase : Phase) : (s.run phase).Defines x :=
  (s.program phase).run_keeps (fun node _ => node.keeps_isSome x) h

theorem Defines.settle (samples : Nat) : (s.settle samples).Defines x :=
  Environment.isSome_write h _ _

theorem Defines.ensureVar (name : String) : (s.ensureVar name).Defines x := by
  rw [Scope.ensureVar]
  split
  · exact h
  · exact Environment.isSome_write h _ _

theorem Defines.frame (m : Moment) : (s.frame m).Defines x := ((h.seed m false).run .frame).settle _

theorem Defines.beat (m : Moment) : (s.beat m).Defines x := ((h.seed m true).run .beat).settle _

theorem Defines.point (i : Nat) : (s.point i).2.Defines x := by
  have hnumbered : Defines { s with environment := s.pointStart i } x :=
    Environment.isSome_write h _ _
  exact hnumbered.run .point

theorem Defines.points (samples : List Nat) : (s.points samples).2.Defines x := by
  rw [points_snd]
  induction samples generalizing s with
  | nil => exact h
  | cons i rest ih => exact ih (h.point i)

/-- A variable that exists does so after a frame is rendered. -/
theorem Defines.render (m : Moment) (hasBeat : Bool) : (s.render m hasBeat).2.Defines x := by
  cases hasBeat with
  | false => exact (h.frame m).points _
  | true => exact ((h.frame m).beat m).points _

/-- Loading forgets no variables. -/
theorem Defines.load (sources : Phased String) : (s.load sources).2.Defines x := by
  rw [Defines, s.load_environment]
  exact h

/-- No operation but `init` removes a variable. -/
theorem Defines.perform {op : Operation} (hop : op.isInit = false) :
    (s.perform op).2.Defines x := by
  cases op with
  | load sources => exact h.load sources
  | loadSources a b c d => exact h.load ⟨a, b, c, d⟩
  | init => cases hop
  | frame m => exact h.frame m
  | beat m => exact h.beat m
  | point i => exact h.point i
  | render m hasBeat => exact h.render m hasBeat
  | setVar name value => exact Environment.isSome_write h _ _
  | writeShared | clearShared => exact h

end Defines

/-! ### What `init` leaves -/

section Init

variable (s : Scope)

/-- The `init` script finds the seeded variables and no others. -/
theorem initStart_var (m : Moment) {x : String} (hx : x ∉ seededNames) :
    (s.initStart m).vars.get? x = none := by
  simp only [seededNames, List.mem_cons, List.not_mem_nil, or_false, not_or] at hx
  simp [initStart, seed, Environment.clearVariables, Environment.write, Variables.get?_set,
    Variables.get?_empty, hx, Ne.symm]

/-- Scopes that differ in their variables are the same after `init`. -/
theorem init_forgets (vars : Variables) (m : Moment) (forced : Option Nat) :
    init { s with environment := { s.environment with vars := vars } } m forced =
      s.init m forced := rfl

private theorem ensureVar_defines {name : String} (hname : Text.fold name = name) :
    (s.ensureVar name).Defines name := by
  rw [ensureVar]
  split
  · rename_i hcontains
    rwa [Environment.contains, Environment.get?, hname] at hcontains
  · rw [Defines, Environment.write, Variables.get?_set, if_pos rfl]
    rfl

/-- After `init` every lasting variable exists: two it makes sure of, and the others it sets. -/
private theorem init_defines (m : Moment) (forced : Option Nat) {x : String}
    (hx : x ∈ lastingNames) : (s.init m forced).Defines x := by
  rw [init_eq]
  obtain rfl | hx := List.mem_cons.mp hx
  · exact (ensureVar_defines _ (by decide +kernel)).ensureVar "y"
  obtain rfl | hx := List.mem_cons.mp hx
  · exact ensureVar_defines _ (by decide +kernel)
  · have hstart : (s.initStart m).vars.get? x |>.isSome := (seed_seeded _ m false).isSome hx
    have hran : (s.runIn .init (s.initStart m)).Defines x :=
      (s.program .init).run_keeps (fun node _ => node.keeps_isSome x) hstart
    exact ((hran.settle _).ensureVar "x").ensureVar "y"

/-- The lasting variables stay once they are there. -/
theorem Defines.performAll {s : Scope} (h : ∀ x ∈ lastingNames, s.Defines x)
    (ops : List Operation) : ∀ x ∈ lastingNames, (s.performAll ops).Defines x := by
  induction ops generalizing s with
  | nil => exact h
  | cons op rest ih =>
    refine ih fun x hx => ?_
    cases op with
    | init m forced => exact s.init_defines m forced hx
    | _ => exact (h x hx).perform rfl

/-- From the first `init` on, the lasting variables are there. -/
theorem Defines.after_init (before : List Operation) (m : Moment) (forced : Option Nat)
    (after : List Operation) :
    ∀ x ∈ lastingNames, (s.performAll (before ++ .init m forced :: after)).Defines x := by
  rw [Scope.performAll, List.foldl_append, List.foldl_cons]
  exact Defines.performAll (fun x hx => init_defines _ m forced hx) after

/-- `init` hands the memories to its script as they are and leaves them as the script does. -/
theorem init_bank (m : Moment) (forced : Option Nat) (b : Script.Bank) :
    (s.initStart m).bank b = s.environment.bank b ∧
      (s.init m forced).environment.bank b =
        ((s.program .init).run (s.initStart m)).bank b := by
  have hensure : ∀ (s : Scope) (name : String),
      (s.ensureVar name).environment.bank b = s.environment.bank b := by
    intro s name
    rw [ensureVar]
    split
    · rfl
    · cases b <;> rfl
  refine ⟨by cases b <;> rfl, ?_⟩
  rw [init_eq]
  dsimp only
  rw [hensure, hensure]
  cases b <;> rfl

end Init

/-- **Only `init` forgets**, and it forgets every variable. Scopes that are equal but for their
variables are equal after the same `init`, whose script finds no variables but the seeded ones. No
other operation removes a variable, so the seeded variables and the coordinates are there from the
first `init` of a run on. `init` does not touch the memories and the random stream: its script
starts with what was there, and what it leaves of them is left by `init`. -/
theorem only_init_forgets :
    (∀ s s' : Scope,
        s' = { s with environment := { s.environment with vars := s'.environment.vars } } →
        ∀ m forced, s'.init m forced = s.init m forced) ∧
      (∀ (s : Scope) m, ∀ x ∉ seededNames, (s.initStart m).vars.get? x = none) ∧
      (∀ (s : Scope) op, op.isInit = false → ∀ x, s.Defines x → (s.perform op).2.Defines x) ∧
      (∀ (s : Scope) before m forced after, ∀ x ∈ lastingNames,
        (s.performAll (before ++ .init m forced :: after)).Defines x) ∧
      ∀ (s : Scope) m forced,
        (∀ b, (s.initStart m).bank b = s.environment.bank b ∧
          (s.init m forced).environment.bank b =
            ((s.program .init).run (s.initStart m)).bank b) ∧
        (s.initStart m).random = s.environment.random ∧
          (s.init m forced).environment.random =
            s.environment.random.skip ((s.program .init).rolls (s.initStart m)).length := by
  refine ⟨?_, fun s m x hx => s.initStart_var m hx, fun s op hop x h => h.perform hop,
    fun s before m forced after => Defines.after_init s before m forced after, ?_⟩
  · intro s s' hs' m forced
    rw [hs']
    exact s.init_forgets s'.environment.vars m forced
  · -- the draws of the init script, read off the calls it evaluates
    intro s m forced
    refine ⟨s.init_bank m forced, rfl, ?_⟩
    rw [← s.rolls_init m forced]
    exact (s.init_rolled m forced).left

/-- A variable that the host sets between two calls of `init`. -/
theorem only_init_forgets_host :
    let s := (Scope.new {} .empty).performAll [.init ⟨0, 1, 1⟩ none]
    let s' := s.setVar "level" 3
    s' = { s with environment := { s.environment with vars := s'.environment.vars } } ∧
      s'.init ⟨1, 1, 1⟩ none = s.init ⟨1, 1, 1⟩ none ∧
      "level" ∉ seededNames ∧ (s'.initStart ⟨1, 1, 1⟩).vars.get? "level" = none ∧
      s'.Defines "level" ∧ (s'.perform (.frame ⟨1, 1, 1⟩)).2.Defines "level" ∧
      "beat" ∈ lastingNames ∧
        (s.performAll ([] ++ .init ⟨1, 1, 1⟩ none :: [.point 0])).Defines "beat" := by
  intro s s'
  obtain ⟨hsame, hstart, hkeep, hlasting, -⟩ := only_init_forgets
  have hlevel : (s.setVar "level" 3).Defines "level" := by
    have hfold : Text.fold "level" = "level" := by decide +kernel
    rw [Defines, setVar, Environment.set, hfold, Environment.write, Variables.get?_set, if_pos rfl]
    rfl
  refine ⟨rfl, hsame s s' rfl _ _, by decide, hstart s' _ "level" (by decide), hlevel, ?_,
    by decide, ?_⟩
  · exact hkeep s' (.frame ⟨1, 1, 1⟩) rfl "level" hlevel
  · exact hlasting s [] ⟨1, 1, 1⟩ none [.point 0] "beat" (by decide)

end Scope

end PointScope

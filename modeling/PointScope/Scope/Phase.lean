/-!
# Phases

The four stages that a scope's scripts belong to, and families with one member for each stage.
-/

namespace PointScope

/-- The stages of a scope. -/
inductive Phase where
  /-- Once, before anything else. -/
  | init
  /-- Before every rendered frame. -/
  | frame
  /-- After a frame's script, if there is a beat. -/
  | beat
  /-- Once for every sample. -/
  | point
deriving DecidableEq, Repr

namespace Phase

/-- The phases in the order of their stages. -/
def all : List Phase := [init, frame, beat, point]

/-- The name of a phase. -/
def name : Phase → String
  | init => "init"
  | frame => "frame"
  | beat => "beat"
  | point => "point"

/-- The phase of a name. -/
def ofName? (s : String) : Option Phase := all.find? fun p => p.name == s

end Phase

/-- One value for each phase. -/
structure Phased (α : Type) where
  init : α
  frame : α
  beat : α
  point : α
deriving DecidableEq, Repr, Inhabited

namespace Phased

variable {α : Type}

/-- The value for a phase. -/
def get (v : Phased α) : Phase → α
  | .init => v.init
  | .frame => v.frame
  | .beat => v.beat
  | .point => v.point

/-- Replaces the value for a phase. -/
def set (v : Phased α) (p : Phase) (a : α) : Phased α :=
  match p with
  | .init => { v with init := a }
  | .frame => { v with frame := a }
  | .beat => { v with beat := a }
  | .point => { v with point := a }

/-- The same value for every phase. -/
def pure (a : α) : Phased α := ⟨a, a, a, a⟩

/-- Replacing the value for one phase leaves the others. -/
theorem get_set (v : Phased α) (p q : Phase) (a : α) :
    (v.set p a).get q = if p = q then a else v.get q := by
  cases p <;> cases q <;> rfl

end Phased

end PointScope

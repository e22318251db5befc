import PointScope.Memory.Pool
import PointScope.Scope.Operation

/-!
# Ensembles

Several scopes side by side, some of which may share a memory. Every member holds a handle into a
pool; while a member performs an operation it has the memory behind its handle, and what it leaves
there goes back to the pool.
-/

namespace PointScope

/-- A scope and its handle to a shared memory. Between operations the memory itself is in the
pool, and the scope's environment has an empty one in its place. -/
structure Member where
  scope : Scope
  handle : Nat

/-- Scopes and the memories that they share. -/
structure Ensemble where
  members : Array Member
  pool : Pool

namespace Ensemble

/-- Scopes with the given configurations, each with its handle into a pool of `memories`
memories. -/
def new (members : List (Config × Nat)) (memories : Nat) : Ensemble :=
  { members := (members.map fun (config, handle) => ⟨Scope.new config .empty, handle⟩).toArray
    pool := .ofSize memories }

/-- A member as a scope of its own, with the memory that it shares. -/
def scope? (e : Ensemble) (k : Nat) : Option Scope :=
  e.members[k]?.map fun m =>
    { m.scope with
      environment := m.scope.environment.setBank .shared (e.pool.memory m.handle) }

/-- Lets member `k` carry out an operation; `none` if there is no such member. -/
def perform (e : Ensemble) (k : Nat) (op : Operation) : Option (Answer × Ensemble) := do
  let handle ← e.members[k]?.map (·.handle)
  let scope ← e.scope? k
  let (answer, scope) := scope.perform op
  let resting := { scope with environment := scope.environment.setBank .shared .empty }
  return (answer,
    { members := e.members.setIfInBounds k ⟨resting, handle⟩
      pool := e.pool.update handle fun _ => scope.environment.shared })

end Ensemble

end PointScope

import PointScope.Memory.Basic

/-!
# Shared memories

Several scopes may hold the same memory. A pool knows which memories there are and which handle
stands for which; a handle is a number. `create` makes a handle to a new memory, `share` another
handle to a memory that already has one, and whatever is done through one handle of a memory is
seen through all of them.
-/

namespace PointScope

/-- Memories and handles to them. -/
structure Pool where
  /-- For each handle, the number of the memory that it stands for. -/
  owners : Array Nat := #[]
  /-- The memories. -/
  memories : Array Memory := #[]
deriving Inhabited

namespace Pool

/-- The memory behind a handle; a handle that was never made stands for an empty one. -/
def memory (p : Pool) (handle : Nat) : Memory :=
  ((p.owners[handle]?).bind (p.memories[·]?)).getD .empty

/-- Changes the memory behind a handle. -/
def update (p : Pool) (handle : Nat) (f : Memory → Memory) : Pool :=
  match p.owners[handle]? with
  | some store => { p with memories := p.memories.modify store f }
  | none => p

/-- A handle to a new, empty memory. -/
def create (p : Pool) : Nat × Pool :=
  (p.owners.size, ⟨p.owners.push p.memories.size, p.memories.push .empty⟩)

/-- Another handle to the memory behind a handle. -/
def share (p : Pool) (handle : Nat) : Nat × Pool :=
  (p.owners.size, { p with owners := p.owners.push (p.owners[handle]?.getD p.memories.size) })

/-- Whether two handles stand for one memory. -/
def same (p : Pool) (handle other : Nat) : Bool := p.owners[handle]? == p.owners[other]?

/-- A pool of `n` memories, with the handles `0, …, n - 1`. -/
def ofSize (n : Nat) : Pool := ⟨Array.range n, Array.replicate n .empty⟩

end Pool

end PointScope

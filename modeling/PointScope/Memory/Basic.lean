import Std.Data.ExtTreeMap

/-!
# Memory

A sparse memory of doubles addressed by signed whole numbers. A cell that was never written
reads as `0`. Two memories are equal when the same cells were written with the same values.
-/

namespace PointScope

/-- Memory cells by address. -/
structure Memory where
  /-- The cells that were written. -/
  cells : Std.ExtTreeMap Int Float

namespace Memory

/-- The memory in which nothing was written. -/
def empty : Memory := ⟨∅⟩

instance : Inhabited Memory := ⟨empty⟩

/-- The value of a cell. -/
def get (m : Memory) (address : Int) : Float := m.cells[address]?.getD 0

/-- The memory after a cell is written. -/
def set (m : Memory) (address : Int) (value : Float) : Memory :=
  ⟨m.cells.insert address value⟩

/-- How many cells were written. -/
def size (m : Memory) : Nat := m.cells.size

/-- Whether no cell was written. -/
def isEmpty (m : Memory) : Bool := m.cells.isEmpty

/-- A cell reads as it was last written, and writing one cell leaves the others. -/
theorem get_set (m : Memory) (a b : Int) (v : Float) :
    (m.set a v).get b = if a = b then v else m.get b := by
  simp only [get, set, Std.ExtTreeMap.getElem?_insert, Std.LawfulEqCmp.compare_eq_iff_eq]
  split <;> rfl

/-- Nothing is stored in the empty memory. -/
theorem get_empty (a : Int) : empty.get a = 0 := by
  simp [get, empty]

end Memory

end PointScope

import PointScope.Numeric.Binary64

/-!
# Canvases

A grid of characters on which points are marked. The square from `(-1, -1)`, the top left corner,
to `(1, 1)`, the bottom right one, is stretched over the grid; points outside it are dropped.

Where a point falls is stated for any kind of number that has a `Rounding` (`scale`, `cellIndex?`,
`Canvas.cellBy?`, `Canvas.plotBy`), so that the rule can also be read over exact fractions. The
canvas reads it over doubles.
-/

namespace PointScope

/-! ### Where a coordinate falls -/

/-- How whole numbers are read as numbers of a kind, and how those are rounded to whole ones. -/
structure Rounding (α : Type) where
  ofNat : Nat → α
  nearest : α → Nat

/-- Doubles are rounded to the nearest count, a half going up. -/
def doubleRounding : Rounding Float := ⟨Float.ofNat, Binary64.toNearestCount⟩

section Mapping

variable {α : Type} [Add α] [Mul α] [Div α] [Neg α] [OfNat α 1] [OfNat α 2]

/-- A coordinate between `-1` and `1`, stretched to lie between `0` and `n - 1`. -/
def scale (r : Rounding α) (n : Nat) (x : α) : α := (x + 1) / 2 * r.ofNat (n - 1)

/-- The index, among `n` rows or columns, of the one that a coordinate falls into; `none` outside
the square. -/
def cellIndex? [LE α] [DecidableLE α] (r : Rounding α) (n : Nat) (x : α) : Option Nat :=
  if -1 ≤ x ∧ x ≤ 1 then some (r.nearest (scale r n x)) else none

end Mapping

/-! ### Canvases -/

/-- A grid of cells, each marked or not. -/
structure Canvas where
  columns : Nat
  rows : Nat
  /-- The marks, row after row. -/
  marks : Array Bool
deriving Inhabited

namespace Canvas

/-- An unmarked canvas; it has at least one column and one row. -/
def new (columns rows : Nat) : Canvas :=
  let columns := max columns 1
  let rows := max rows 1
  ⟨columns, rows, Array.replicate (columns * rows) false⟩

/-- The canvas without its marks. -/
def clear (c : Canvas) : Canvas := { c with marks := Array.replicate c.marks.size false }

section Reading

variable {α : Type} [Add α] [Mul α] [Div α] [Neg α] [OfNat α 1] [OfNat α 2] [LE α] [DecidableLE α]

/-- The column and row that a point falls into, over any kind of number. -/
def cellBy? (r : Rounding α) (c : Canvas) (x y : α) : Option (Nat × Nat) := do
  let column ← cellIndex? r c.columns x
  let row ← cellIndex? r c.rows y
  return (column, row)

/-- Marks the cell that a point falls into, over any kind of number, and says whether there is
one. -/
def plotBy (r : Rounding α) (c : Canvas) (x y : α) : Bool × Canvas :=
  match c.cellBy? r x y with
  | some (column, row) =>
    (true, { c with marks := c.marks.setIfInBounds (row * c.columns + column) true })
  | none => (false, c)

end Reading

/-- The column and row that a point falls into. -/
def cell? (c : Canvas) (x y : Float) : Option (Nat × Nat) := c.cellBy? doubleRounding x y

/-- Marks the cell that a point falls into, and says whether there is one. -/
def plot (c : Canvas) (x y : Float) : Bool × Canvas := c.plotBy doubleRounding x y

/-- What is marked is the cell that the point falls into. -/
theorem plot_eq (c : Canvas) (x y : Float) : c.plot x y =
    match c.cell? x y with
    | some (column, row) =>
      (true, { c with marks := c.marks.setIfInBounds (row * c.columns + column) true })
    | none => (false, c) := rfl

/-- Marks the cells of some points, and counts those points that fall into one. -/
def plotAll (c : Canvas) (points : Array (Float × Float)) : Nat × Canvas :=
  points.foldl
    (fun (count, c) (x, y) =>
      let (hit, c) := c.plot x y
      (count + hit.toNat, c))
    (0, c)

/-- Whether a cell is marked. -/
def isMarked (c : Canvas) (column row : Nat) : Bool :=
  column < c.columns && row < c.rows && c.marks[row * c.columns + column]?.getD false

/-- One row of the canvas as text, with a line break. -/
def renderRow (c : Canvas) (row : Nat) : List Char :=
  (List.range c.columns).map (fun column => if c.isMarked column row then '*' else ' ') ++ ['\n']

/-- The canvas as text, row after row. -/
def render (c : Canvas) : String :=
  String.ofList ((List.range c.rows).flatMap c.renderRow)

end Canvas

end PointScope

import PointScope.Proofs.Host.Marks
import PointScope.Proofs.Runs

/-!
# What a canvas shows after a run

A canvas on which points are drawn and which is wiped off now and then stands for a set of cells:
those into which a point falls that was drawn since (`Canvas.plotted`). For every step adds the
cells of its points or takes all marks away (`Canvas.shows_performAll`). The marks are kept in one
row behind another, and the text is this row cut into lines of the width of the canvas
(`Canvas.Sized.flatten_lines`); so the cells that are marked tell the whole canvas
(`Canvas.Sized.eq_of_isMarked`), and it does not matter in which order points are drawn, or how
often.
-/

namespace PointScope

open Binary64

/-! ### The square -/

/-- The point lies in the square that is stretched over a canvas. -/
def InSquare (p : Float × Float) : Prop := (-1 ≤ p.1 ∧ p.1 ≤ 1) ∧ -1 ≤ p.2 ∧ p.2 ≤ 1

instance : DecidablePred InSquare := fun p =>
  inferInstanceAs (Decidable ((-1 ≤ p.1 ∧ p.1 ≤ 1) ∧ -1 ≤ p.2 ∧ p.2 ≤ 1))

/-- The index, among `n` columns or rows, to which a coordinate in the square is mapped. -/
def mappedIndex (n : ℕ) (x : Float) : ℕ := toNearestCount (scale doubleRounding n x)

/-- What is not a number is not at most anything. -/
private theorem Binary64.isNaN_eq_false_of_le {x y : Float} (h : x ≤ y) : x.isNaN = false := by
  have hle : Float.Model.UnpackedFloat.le x.toModel.unpack y.toModel.unpack = true :=
    of_decide_eq_true h
  change x.toModel.unpack.isNaN = false
  match hx : x.toModel.unpack with
  | .notANumber =>
    rw [hx] at hle
    cases hle
  | .zero _ | .infinity _ | .finite .. => rfl

/-- The coordinates of a point in the square are numbers. -/
private theorem isNaN_of_inSquare {p : Float × Float} (h : InSquare p) :
    p.1.isNaN = false ∧ p.2.isNaN = false :=
  ⟨isNaN_eq_false_of_le h.1.2, isNaN_eq_false_of_le h.2.2⟩

namespace Canvas

variable {c : Canvas}

/-- A point in the square falls into the cell that its coordinates are mapped to, and no other point
into any. -/
private theorem cell?_eq_some_iff {x y : Float} {column row : ℕ} :
    c.cell? x y = some (column, row) ↔
      InSquare (x, y) ∧ mappedIndex c.columns x = column ∧ mappedIndex c.rows y = row := by
  unfold cell? cellBy? cellIndex? InSquare
  by_cases hx : -1 ≤ x ∧ x ≤ 1
  · by_cases hy : -1 ≤ y ∧ y ≤ 1
    · simp [hx, hy, mappedIndex, doubleRounding]
    · simp [hx, hy]
  · simp [hx]

private theorem plot_fst_eq_true_iff {x y : Float} : (c.plot x y).1 = true ↔ InSquare (x, y) := by
  rw [plot_eq]
  cases hcell : c.cell? x y with
  | none =>
    refine iff_of_false Bool.false_ne_true fun hinside => ?_
    rw [cell?_eq_some_iff.mpr ⟨hinside, rfl, rfl⟩] at hcell
    cases hcell
  | some cell => exact iff_of_true rfl (cell?_eq_some_iff.mp hcell).1

private theorem plot_fst (c : Canvas) (p : Float × Float) :
    (c.plot p.1 p.2).1 = decide (InSquare p) :=
  Bool.eq_iff_iff.mpr (plot_fst_eq_true_iff.trans decide_eq_true_iff.symm)

/-- The points in the square are counted. -/
theorem plotAll_fst (c : Canvas) (points : Array (Float × Float)) :
    (c.plotAll points).1 = points.countP fun p => InSquare p := by
  have hall : (c.plotAll points).1 =
      (points.toList.take points.size).countP fun p => InSquare p := by
    unfold plotAll
    refine Array.foldl_induction (fun i (drawn : ℕ × Canvas) =>
      drawn.1 = (points.toList.take i).countP fun p => InSquare p) rfl ?_
    intro i drawn hbefore
    rw [← List.take_append_getElem (by simp : i.val < points.toList.length), List.countP_append,
      List.countP_singleton, ← hbefore, ← Bool.cond_eq_ite, ← plot_fst drawn.2]
    rfl
  rw [hall, List.take_of_length_le points.length_toList.le, Array.countP_toList]

/-! ### Steps -/

/-- What is done to a canvas. -/
inductive Step where
  | plot (x y : Float)
  | plotAll (points : Array (Float × Float))
  | clear

namespace Step

/-- Whether the canvas is empty afterwards. -/
def clears : Step → Bool
  | clear => true
  | _ => false

/-- The points that are drawn. -/
def points : Step → List (Float × Float)
  | plot x y => [(x, y)]
  | plotAll points => points.toList
  | clear => []

end Step

/-- Carries a step out. -/
def perform (c : Canvas) : Step → Canvas
  | .plot x y => (c.plot x y).2
  | .plotAll points => (c.plotAll points).2
  | .clear => c.clear

/-- Carries steps out in order. -/
def performAll (c : Canvas) (steps : List Step) : Canvas := steps.foldl perform c

/-- The points that were drawn since the canvas was wiped off. -/
def plotted (steps : List Step) : List (Float × Float) :=
  (since Step.clears steps).flatMap Step.points

/-- A step that does not wipe the canvas off adds its points. -/
private theorem shows_perform (hc : c.Sized) {step : Step} (hstep : step.clears = false) :
    c.Shows step.points (c.perform step) := by
  cases step with
  | plot x y => exact shows_plot hc x y
  | plotAll points => exact shows_plotAll hc points
  | clear => cases hstep

/-- A canvas that is wiped off is as if nothing had been drawn on it. -/
theorem Shows.clear {c c' : Canvas} {points : List (Float × Float)} (h : c.Shows points c') :
    c.clear.Shows [] c'.clear := by
  refine ⟨h.columns, h.rows, h.sized.clear, fun column row => ?_⟩
  simp [isMarked_clear]

private theorem clear_new (columns rows : ℕ) : (new columns rows).clear = new columns rows := by
  unfold clear new
  rw [Array.size_replicate]

/-- **A run shows what was drawn since the canvas was wiped off.** -/
theorem shows_performAll {columns rows : ℕ} (hnew : (new columns rows).Sized) (steps : List Step) :
    (new columns rows).Shows (plotted steps) ((new columns rows).performAll steps) := by
  refine foldl_since (P := fun past c => (new columns rows).Shows (past.flatMap Step.points) c)
    (shows_nil hnew) ?_ ?_ steps
  · rintro past c (_ | _ | _) hclears h
    · cases hclears
    · cases hclears
    · rw [← clear_new columns rows]
      exact h.clear
  · intro past c step hstep h
    rw [List.flatMap_append, List.flatMap_singleton]
    exact h.trans (shows_perform h.sized hstep)

/-! ### Lines -/

/-- The marks of a row. -/
def line (c : Canvas) (row : ℕ) : List Bool := (List.range c.columns).map (c.isMarked · row)

/-- The marks, one line for each row. -/
def lines (c : Canvas) : List (List Bool) := (List.range c.rows).map c.line

private theorem length_line (c : Canvas) (row : ℕ) : (c.line row).length = c.columns := by
  rw [line, List.length_map, List.length_range]

private theorem length_lines (c : Canvas) : c.lines.length = c.rows := by
  rw [lines, List.length_map, List.length_range]

private theorem getElem?_line (c : Canvas) (row : ℕ) {column : ℕ} (hcolumn : column < c.columns) :
    (c.line row)[column]? = some (c.isMarked column row) := by
  rw [line, List.getElem?_map, List.getElem?_range hcolumn, Option.map_some]

/-- The text is the lines, in characters. -/
theorem render_eq (c : Canvas) : c.render = String.ofList (c.lines.flatMap fun line =>
    line.map (fun mark => if mark then '*' else ' ') ++ ['\n']) := by
  rw [render, lines, List.flatMap_map]
  refine congrArg (fun row => String.ofList ((List.range c.rows).flatMap row)) ?_
  funext row
  rw [renderRow, line, List.map_map]
  rfl

section Sized

variable (hc : c.Sized)

include hc

/-- A line is the piece of the marks behind those of the rows above it. -/
theorem Sized.line_eq {row : ℕ} (hrow : row < c.rows) :
    c.line row = (c.marks.toList.drop (row * c.columns)).take c.columns := by
  refine List.ext_getElem? fun column => ?_
  rw [List.getElem?_take, List.getElem?_drop]
  by_cases hcolumn : column < c.columns
  · have hindex := hc.index_lt hcolumn hrow
    rw [getElem?_line c row hcolumn, if_pos hcolumn, Array.getElem?_toList, isMarked]
    simp [hcolumn, hrow, hindex]
  · rw [if_neg hcolumn, List.getElem?_eq_none]
    rw [length_line]
    exact Nat.le_of_not_lt hcolumn

/-- The lines follow one another in the marks. -/
theorem Sized.flatten_lines : c.lines.flatten = c.marks.toList := by
  have htake : ∀ row ≤ c.rows,
      ((List.range row).map c.line).flatten = c.marks.toList.take (row * c.columns) := by
    intro row hrow
    induction row with
    | zero => simp
    | succ row ih =>
      rw [List.range_succ, List.map_append, List.flatten_append, ih (Nat.le_of_succ_le hrow),
        Nat.succ_mul, List.take_add, List.map_singleton, List.flatten_singleton,
        hc.line_eq hrow]
  rw [lines, htake c.rows le_rfl, List.take_of_length_le]
  rw [Array.length_toList, hc.size, Nat.mul_comm]

/-- The cells that are marked tell the canvas. -/
theorem Sized.eq_of_isMarked {c' : Canvas} (hc' : c'.Sized) (hcolumns : c'.columns = c.columns)
    (hrows : c'.rows = c.rows)
    (hmarked : ∀ column row, c'.isMarked column row = true ↔ c.isMarked column row = true) :
    c' = c := by
  have hlines : c'.lines = c.lines := by
    unfold lines line
    simp only [hcolumns, hrows, Bool.eq_iff_iff.mpr (hmarked _ _)]
  have hmarks : c'.marks = c.marks := by
    rw [← Array.toList_inj, ← hc'.flatten_lines, ← hc.flatten_lines, hlines]
  cases c
  cases c'
  congr

end Sized

/-! ### Runs -/

/-- **A canvas is the set of the cells that were hit.** After any run a cell is marked just if it
lies on the canvas and a point in the square was drawn since the canvas was wiped off that is mapped
to its column and row. Points in the square, and no others, are reported as drawn, and several are
counted. The text has a line for each row, in which the marked cells are stars and the others
spaces; these lines, of the width of the canvas, are the marks one after another. And neither the
order of points nor how often they are drawn matters.

Every point in the square has to be mapped to a column and a row that there are. It is, if doubles
can tell the columns and rows apart. -/
theorem canvas_shows_plotted {columns rows : ℕ} (hcolumns : Fits (max columns 1))
    (hrows : Fits (max rows 1)) (steps : List Step) :
    let c := (new columns rows).performAll steps
    (∀ column row, c.isMarked column row = true ↔ (column < max columns 1 ∧ row < max rows 1) ∧
      ∃ p ∈ plotted steps, InSquare p ∧ mappedIndex (max columns 1) p.1 = column ∧
        mappedIndex (max rows 1) p.2 = row) ∧
    (∀ x y, ((c.plot x y).1 = true ↔ InSquare (x, y)) ∧
      (x.isNaN = true ∨ y.isNaN = true → (c.plot x y).1 = false)) ∧
    (∀ points, (c.plotAll points).1 = points.countP fun p => InSquare p) ∧
    (∃ lines : List (List Bool),
      c.render = String.ofList (lines.flatMap fun line =>
        line.map (fun mark => if mark then '*' else ' ') ++ ['\n']) ∧
      lines.flatten = c.marks.toList ∧ lines.length = max rows 1 ∧
      (∀ line ∈ lines, line.length = max columns 1) ∧
      ∀ column < max columns 1, ∀ row < max rows 1,
        lines[row]?.bind (·[column]?) = some (c.isMarked column row)) ∧
    (∀ steps', (∀ p, p ∈ plotted steps' ↔ p ∈ plotted steps) →
      (new columns rows).performAll steps' = c) ∧
    ∀ n, 0 < n → n ≤ 2 ^ 53 → Fits n := by
  intro c
  have hnew : (new columns rows).Sized := sized_new_of_fits hcolumns hrows
  have hshows : ∀ steps, (new columns rows).Shows (plotted steps)
      ((new columns rows).performAll steps) := shows_performAll hnew
  obtain ⟨hwidth, hheight, hsized, hmarked⟩ := hshows steps
  -- a new canvas has no marks, so all of them come from the steps
  have hempty : ∀ column row, ¬(new columns rows).isMarked column row = true := by
    intro column row
    rw [← clear_new, isMarked_clear]
    exact Bool.false_ne_true
  refine ⟨fun column row => ?_, fun x y => ⟨plot_fst_eq_true_iff, fun hnan => ?_⟩, c.plotAll_fst,
    ⟨c.lines, c.render_eq, hsized.flatten_lines, ?_, ?_, ?_⟩, fun steps' hpoints => ?_,
    fun n => fits_of_le⟩
  · rw [hmarked, or_iff_right (hempty column row)]
    simp only [cell?_eq_some_iff]
    refine iff_and_self.mpr ?_
    rintro ⟨p, -, hcell⟩
    exact hnew.cell?_lt (cell?_eq_some_iff.mpr hcell)
  · rw [plot_fst c (x, y), decide_eq_false_iff_not]
    intro hinside
    obtain ⟨hx, hy⟩ := isNaN_of_inSquare hinside
    rcases hnan with hnan | hnan
    · exact Bool.false_ne_true (hx.symm.trans hnan)
    · exact Bool.false_ne_true (hy.symm.trans hnan)
  · exact c.length_lines.trans hheight
  · refine List.forall_mem_map.mpr fun row _ => ?_
    exact (c.length_line row).trans hwidth
  · intro column hcolumn row hrow
    have hcolumn : column < c.columns := hcolumn.trans_eq hwidth.symm
    have hrow : row < c.rows := hrow.trans_eq hheight.symm
    rw [lines, List.getElem?_map, List.getElem?_range hrow]
    exact c.getElem?_line row hcolumn
  · -- canvases of one size with equal marks are equal
    have hshows' := hshows steps'
    refine hsized.eq_of_isMarked hshows'.sized (hshows'.columns.trans hwidth.symm)
      (hshows'.rows.trans hheight.symm) fun column row => ?_
    rw [hshows'.isMarked, hmarked]
    simp only [hpoints]

/-- The corners and the centre of a canvas on which a point was drawn before it was wiped off. -/
theorem canvas_shows_plotted_corners :
    let steps : List Step := [.plot 1 (-1), .clear, .plotAll #[(-1, -1), (1, 1)], .plot 0 0]
    let c := (new 5 3).performAll steps
    Fits (max 5 1) ∧ Fits (max 3 1) ∧ c.isMarked 4 2 = true ∧ c.isMarked 4 0 = false := by
  intro steps c
  have hcolumns : Fits (max 5 1) := fits_of_le (by decide) (by decide)
  have hrows : Fits (max 3 1) := fits_of_le (by decide) (by decide)
  have hmarked := (canvas_shows_plotted hcolumns hrows steps).1
  refine ⟨hcolumns, hrows, (hmarked 4 2).mpr ?_, ?_⟩
  · exact ⟨by decide, (1, 1), List.mem_cons_of_mem _ List.mem_cons_self, by decide +kernel⟩
  · rw [Bool.eq_false_iff, Ne, hmarked]
    rintro ⟨-, hhit⟩
    revert hhit
    decide +kernel

end Canvas

end PointScope

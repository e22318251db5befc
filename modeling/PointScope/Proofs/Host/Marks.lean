import PointScope.Host.Canvas
import PointScope.Proofs.Numeric.Bounds

/-!
# What is marked on a canvas

A coordinate in the square falls into one of the columns or rows (`cellIndex?_lt`), although it is
scaled in doubles and every step rounds: each bound on the way is a number that rounding keeps. So
each point marks the cell it falls into and no other (`isMarked_plot`), and a canvas that is wiped
off and drawn on shows the cells of the points of that drawing (`isMarked_clear_plotAll`).
-/

namespace PointScope

open Binary64 Float.Model Float.Model.UnpackedFloat

/-! ### Where a coordinate falls -/

private theorem unpack_one : ∃ h : IsCanonical (2 ^ 52) (-52),
    (1 : Float).toModel.unpack = .finite .positive (2 ^ 52) (-52) h.pos :=
  ⟨⟨by norm_num, by norm_num, by norm_num, by norm_num, .inl le_rfl⟩, rfl⟩

private theorem unpack_two : ∃ h : IsCanonical (2 ^ 52) (-51),
    (2 : Float).toModel.unpack = .finite .positive (2 ^ 52) (-51) h.pos :=
  ⟨⟨by norm_num, by norm_num, by norm_num, by norm_num, .inl le_rfl⟩, rfl⟩

/-- Half of one more than a coordinate is at most one. -/
private theorem atMost_half {x : Float} (hx : x ≤ 1) : AtMost 1 ((x + 1) / 2).toModel.unpack := by
  obtain ⟨h₁, hone⟩ := unpack_one
  obtain ⟨h₂, htwo⟩ := unpack_two
  have hbound₁ : (((2 ^ 52 : ℕ) : ℚ) * 2 ^ (-52 : ℤ)) = 1 := by norm_num
  have hbound₂ : (((2 ^ 52 : ℕ) : ℚ) * 2 ^ (-51 : ℤ)) = 2 := by norm_num
  have hx : AtMost 1 x.toModel.unpack := by
    have hle := atMost_of_le h₁ hone hx
    rwa [hbound₁] at hle
  have hsum : AtMost 2 (x + 1).toModel.unpack := by
    have hle := atMost_add hx h₁ h₂ zero_le_one (by rw [hbound₁, hbound₂]; norm_num)
    rw [← hone, hbound₂] at hle
    exact hle
  have hhalf := atMost_div hsum h₂ h₁ (by rw [hbound₁, hbound₂]; norm_num)
  rw [← htwo, hbound₁] at hhalf
  exact hhalf

/-- A scaled coordinate is at most the greatest index. -/
private theorem atMost_scale {n : ℕ} (hn : n ≤ 2 ^ 53 + 1) {x : Float} (hx : x ≤ 1) :
    AtMost (n - 1 : ℕ) (scale doubleRounding n x).toModel.unpack := by
  have hhalf := atMost_half hx
  change AtMost (n - 1 : ℕ) ((x + 1) / 2 * Float.ofNat (n - 1)).toModel.unpack
  generalize hlast : n - 1 = k
  rcases k.eq_zero_or_pos with rfl | hpos
  · exact atMost_mul_zero _ _
  · obtain ⟨m, e, h, hfull, hvalue, hunpack⟩ := unpack_float_ofNat hpos (by omega : k ≤ 2 ^ 53)
    have hproduct := atMost_mul hhalf h h hfull (by rw [one_mul])
    rw [← hunpack, hvalue] at hproduct
    exact hproduct

/-- **A coordinate falls into one of the columns or rows.** -/
theorem cellIndex?_lt {n i : ℕ} (hpos : 0 < n) (hn : n ≤ 2 ^ 53) {x : Float}
    (h : cellIndex? doubleRounding n x = some i) : i < n := by
  unfold cellIndex? at h
  split at h
  · rename_i hx
    cases h
    have hle : toNearestCount (scale doubleRounding n x) ≤ n - 1 :=
      toNearestCount_le (atMost_scale (by omega) hx.2)
    exact Nat.lt_of_le_pred hpos hle
  · cases h

/-- There are so many columns or rows that every coordinate in the square falls into one of them. -/
def Fits (n : ℕ) : Prop := ∀ x i, cellIndex? doubleRounding n x = some i → i < n

/-- Doubles can tell so many columns or rows apart. -/
theorem fits_of_le {n : ℕ} (hpos : 0 < n) (hn : n ≤ 2 ^ 53) : Fits n :=
  fun _ _ => cellIndex?_lt hpos hn

namespace Canvas

/-! ### Marks -/

/-- A canvas of a size that every point in the square fits, with a mark for each cell. -/
structure Sized (c : Canvas) : Prop where
  columns_fits : Fits c.columns
  rows_fits : Fits c.rows
  size : c.marks.size = c.columns * c.rows

/-- A new canvas has a mark for each cell if no index is rounded out of it. -/
theorem sized_new_of_fits {columns rows : ℕ} (hcolumns : Fits (max columns 1))
    (hrows : Fits (max rows 1)) : (new columns rows).Sized :=
  ⟨hcolumns, hrows, Array.size_replicate⟩

/-- The cells are numbered row after row. -/
private theorem index_inj {columns column row column' row' : ℕ} (h : column < columns)
    (h' : column' < columns) (heq : row * columns + column = row' * columns + column') :
    column = column' ∧ row = row' := by
  have hpos : 0 < columns := by omega
  have hmod := congrArg (· % columns) heq
  have hdiv := congrArg (· / columns) heq
  simp only [Nat.mul_add_mod_self_right, Nat.mod_eq_of_lt h, Nat.mod_eq_of_lt h'] at hmod
  simp only [Nat.mul_comm _ columns, Nat.mul_add_div hpos, Nat.div_eq_of_lt h,
    Nat.div_eq_of_lt h', Nat.add_zero] at hdiv
  exact ⟨hmod, hdiv⟩

/-- No cell has a number behind that of the last one. -/
theorem index_lt {columns rows column row : ℕ} (hcolumn : column < columns) (hrow : row < rows) :
    row * columns + column < columns * rows :=
  calc row * columns + column < row * columns + columns := Nat.add_lt_add_left hcolumn _
    _ = (row + 1) * columns := (Nat.succ_mul row columns).symm
    _ ≤ rows * columns := Nat.mul_le_mul_right _ hrow
    _ = columns * rows := Nat.mul_comm _ _

section Sized

variable {c : Canvas} (hc : c.Sized)

include hc

/-- A point falls into a cell of the canvas. -/
theorem Sized.cell?_lt {x y : Float} {column row : ℕ} (h : c.cell? x y = some (column, row)) :
    column < c.columns ∧ row < c.rows := by
  unfold cell? cellBy? at h
  cases hcolumn : cellIndex? doubleRounding c.columns x with
  | none => simp [hcolumn] at h
  | some i =>
    cases hrow : cellIndex? doubleRounding c.rows y with
    | none => simp [hcolumn, hrow] at h
    | some j =>
      obtain ⟨rfl, rfl⟩ : i = column ∧ j = row := by simpa [hcolumn, hrow] using h
      exact ⟨hc.columns_fits x i hcolumn, hc.rows_fits y j hrow⟩

/-- Each cell of a canvas has a mark. -/
theorem Sized.index_lt {column row : ℕ} (hcolumn : column < c.columns) (hrow : row < c.rows) :
    row * c.columns + column < c.marks.size :=
  hc.size ▸ Canvas.index_lt hcolumn hrow

end Sized

/-- Where a point falls depends on how many columns and rows there are. -/
theorem cell?_congr {c c' : Canvas} (hcolumns : c'.columns = c.columns) (hrows : c'.rows = c.rows)
    (x y : Float) : c'.cell? x y = c.cell? x y := by
  unfold cell? cellBy?
  rw [hcolumns, hrows]

/-- A cell is marked if it is on the canvas and its mark is set. -/
theorem isMarked_iff {c : Canvas} {column row : ℕ} : c.isMarked column row = true ↔
    (column < c.columns ∧ row < c.rows) ∧ c.marks[row * c.columns + column]? = some true := by
  unfold isMarked
  rw [Bool.and_eq_true, Bool.and_eq_true, decide_eq_true_iff, decide_eq_true_iff]
  refine and_congr_right fun _ => ?_
  cases c.marks[row * c.columns + column]? with
  | none => simp
  | some mark => simp

/-- The canvas `c'` is `c` with the cells marked into which one of the points falls. -/
structure Shows (c : Canvas) (points : List (Float × Float)) (c' : Canvas) : Prop where
  columns : c'.columns = c.columns
  rows : c'.rows = c.rows
  sized : c'.Sized
  isMarked : ∀ column row, c'.isMarked column row = true ↔
    c.isMarked column row = true ∨ ∃ p ∈ points, c.cell? p.1 p.2 = some (column, row)

theorem shows_nil {c : Canvas} (hc : c.Sized) : c.Shows [] c := by
  refine ⟨rfl, rfl, hc, fun column row => ?_⟩
  simp

/-- What is drawn in two parts is drawn together. -/
theorem Shows.trans {c c' c'' : Canvas} {ps qs : List (Float × Float)} (h : c.Shows ps c')
    (h' : c'.Shows qs c'') : c.Shows (ps ++ qs) c'' := by
  have hcell : ∀ x y, c'.cell? x y = c.cell? x y := cell?_congr h.columns h.rows
  refine ⟨h'.columns.trans h.columns, h'.rows.trans h.rows, h'.sized, fun column row => ?_⟩
  rw [h'.isMarked, h.isMarked, or_assoc]
  simp only [hcell, List.mem_append, or_and_right, exists_or]

/-- A point marks its cell and no other. -/
theorem shows_plot {c : Canvas} (hc : c.Sized) (x y : Float) : c.Shows [(x, y)] (c.plot x y).2 := by
  rw [plot_eq]
  cases hcell : c.cell? x y with
  | none =>
    refine ⟨rfl, rfl, hc, fun column row => ?_⟩
    simp [hcell]
  | some cell =>
    obtain ⟨column', row'⟩ := cell
    obtain ⟨hcolumn', hrow'⟩ := hc.cell?_lt hcell
    refine ⟨rfl, rfl, ⟨hc.columns_fits, hc.rows_fits, ?_⟩, ?_⟩
    · rw [← hc.size]
      exact Array.size_setIfInBounds
    · intro column row
      rw [isMarked_iff, isMarked_iff]
      have hindex := hc.index_lt hcolumn' hrow'
      simp only [List.mem_singleton, exists_eq_left, hcell, Option.some.injEq, Prod.mk.injEq]
      by_cases hsame : column' = column ∧ row' = row
      · obtain ⟨rfl, rfl⟩ := hsame
        simp [hcolumn', hrow', hindex]
      · rw [or_iff_left hsame]
        refine and_congr_right fun hinside => ?_
        have hne : row' * c.columns + column' ≠ row * c.columns + column := by
          intro heq
          exact hsame (index_inj hcolumn' hinside.1 heq)
        rw [Array.getElem?_setIfInBounds_ne hne]

/-- **Points mark their cells and no others**, however many there are. -/
theorem shows_plotAll {c : Canvas} (hc : c.Sized) (points : Array (Float × Float)) :
    c.Shows points.toList (c.plotAll points).2 := by
  have hall : c.Shows (points.toList.take points.size) (c.plotAll points).2 := by
    unfold plotAll
    refine Array.foldl_induction
      (fun i (drawn : ℕ × Canvas) => c.Shows (points.toList.take i) drawn.2) ?_ ?_
    · exact shows_nil hc
    · intro i drawn hbefore
      have hnext := hbefore.trans (shows_plot hbefore.sized points[i].1 points[i].2)
      rw [← List.take_append_getElem (by simp : i.val < points.toList.length)]
      exact hnext
  rwa [List.take_of_length_le points.length_toList.le] at hall

/-! ### Drawings -/

theorem Sized.clear {c : Canvas} (hc : c.Sized) : c.clear.Sized :=
  ⟨hc.columns_fits, hc.rows_fits, Array.size_replicate.trans hc.size⟩

/-- A canvas that is wiped off has no marks. -/
theorem isMarked_clear (c : Canvas) (column row : ℕ) : c.clear.isMarked column row = false := by
  rw [Bool.eq_false_iff, Ne, isMarked_iff]
  rintro ⟨-, h⟩
  simp [Canvas.clear, Array.getElem?_replicate] at h

end Canvas

end PointScope

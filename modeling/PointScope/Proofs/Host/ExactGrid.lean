import PointScope.Proofs.Host.Drawing

/-!
# Plotting in exact numbers

The rule by which a point falls into a cell can be read over any kind of number (`Canvas.plotBy`);
the canvas reads it over doubles. Here it is read over exact fractions, where a half is rounded away
from zero (`exactRounding`). A coordinate from `-1` to `1` is stretched to lie between zero and the
last index, so it is rounded to one of the columns or rows, in order, the ends to the first and the
last (`spreads_exactIndex`). A coordinate and its negative are stretched to two numbers that add up
to the last index; so are their columns, except that two halves both go up (`exactIndex_mirror`,
`exactIndex_halfway`).
-/

namespace PointScope

open Binary64

/-! ### Exact fractions -/

/-- The whole number nearest to a fraction; a half is rounded away from zero. -/
def roundAway (q : ℚ) : ℤ := if 0 ≤ q then ⌊q + 1 / 2⌋ else -⌊-q + 1 / 2⌋

/-- Fractions are rounded to the nearest count, a half away from zero; no count is negative. -/
def exactRounding : Rounding ℚ := ⟨fun n => n, fun q => (roundAway q).toNat⟩

private theorem nearest_of_nonneg {q : ℚ} (hq : 0 ≤ q) :
    exactRounding.nearest q = ⌊q + 1 / 2⌋₊ := by
  change (roundAway q).toNat = _
  rw [roundAway, if_pos hq, Int.floor_toNat]

private theorem nearest_of_neg {q : ℚ} (hq : q < 0) : exactRounding.nearest q = 0 := by
  have hfloor : 0 ≤ ⌊-q + 1 / 2⌋ := Int.floor_nonneg.mpr (by linarith)
  change (roundAway q).toNat = 0
  rw [roundAway, if_neg (not_le.mpr hq)]
  exact Int.toNat_of_nonpos (by omega)

private theorem nearest_natCast (n : ℕ) : exactRounding.nearest n = n := by
  rw [nearest_of_nonneg n.cast_nonneg, Nat.floor_eq_iff (by positivity)]
  constructor <;> linarith

/-- The number nearest to `m · 2^e` is the same on the pair as on the fraction. -/
theorem nearestWhole_eq (m : ℕ) (e : ℤ) :
    nearestWhole m e = exactRounding.nearest (m * 2 ^ e) := by
  unfold nearestWhole
  split
  · rename_i he
    obtain ⟨k, rfl⟩ := Int.eq_ofNat_of_zero_le he
    have hwhole : (m * 2 ^ (k : ℤ) : ℚ) = (m * 2 ^ k : ℕ) := by push_cast; rfl
    rw [Int.toNat_natCast, Nat.shiftLeft_eq, hwhole, nearest_natCast]
  · rename_i he
    obtain ⟨k, rfl⟩ : ∃ k : ℕ, e = -(k + 1 : ℕ) := ⟨(-e).toNat - 1, by omega⟩
    -- half a place is added before the shift
    have hhalf : (m * 2 ^ (-(k + 1 : ℕ) : ℤ) + 1 / 2 : ℚ) =
        (m + 2 ^ k : ℕ) / (2 ^ (k + 1) : ℕ) := by
      rw [zpow_neg, zpow_natCast, pow_succ]
      push_cast
      field_simp
      ring
    rw [nearest_of_nonneg (by positivity), hhalf, Nat.floor_div_eq_div, neg_neg,
      Int.toNat_natCast, Nat.add_sub_cancel, Nat.shiftRight_eq_div_pow, Nat.shiftLeft_eq, one_mul]

/-- **A double is rounded like the fraction that it stands for**, as far as counts go. -/
theorem doubleRounding_nearest {x : Float} {negative : Bool} {m : ℕ} {e : ℤ}
    (hx : parts x = .finite negative m e) :
    doubleRounding.nearest x =
      min (exactRounding.nearest ((if negative then -1 else 1) * (m * 2 ^ e))) maxCount := by
  change toNearestCount x = _
  rw [toNearestCount, hx]
  cases negative with
  | false => simp only [Bool.false_eq_true, if_false, one_mul, nearestWhole_eq]
  | true =>
    have hvalue : (0 : ℚ) ≤ m * 2 ^ e := by positivity
    have hnone : exactRounding.nearest (-1 * (m * 2 ^ e)) = 0 := by
      rcases hvalue.eq_or_lt with hzero | hpos
      · rw [← hzero, mul_zero]
        exact nearest_natCast 0
      · exact nearest_of_neg (by linarith)
    simp only [if_true, hnone, Nat.zero_min]

/-! ### Coordinates -/

/-- The index, among `n` columns or rows, to which a coordinate is mapped in exact numbers. -/
def exactIndex (n : ℕ) (x : ℚ) : ℕ := exactRounding.nearest (scale exactRounding n x)

/-- A number halfway between two whole ones. -/
def Halfway (q : ℚ) : Prop := ∃ k : ℕ, q = k + 1 / 2

section Scale

variable {n : ℕ} {x : ℚ}

private theorem scale_exact (n : ℕ) (x : ℚ) :
    scale exactRounding n x = (x + 1) / 2 * ((n - 1 : ℕ) : ℚ) := rfl

/-- No coordinate is stretched to the left of the first column. -/
private theorem scale_nonneg (n : ℕ) (hx : |x| ≤ 1) : 0 ≤ scale exactRounding n x := by
  have hlow := (abs_le.mp hx).1
  rw [scale_exact]
  exact mul_nonneg (by linarith) (Nat.cast_nonneg _)

/-- Coordinates stay in order when they are stretched. -/
theorem scale_mono (n : ℕ) {x' : ℚ} (h : x ≤ x') :
    scale exactRounding n x ≤ scale exactRounding n x' := by
  rw [scale_exact, scale_exact]
  exact mul_le_mul_of_nonneg_right (by linarith) (Nat.cast_nonneg _)

/-- A coordinate and its negative share out the whole width. -/
private theorem scale_add_scale_neg (n : ℕ) (x : ℚ) :
    scale exactRounding n x + scale exactRounding n (-x) = ((n - 1 : ℕ) : ℚ) := by
  rw [scale_exact, scale_exact]
  ring

private theorem exactIndex_eq (n : ℕ) (hx : |x| ≤ 1) :
    exactIndex n x = ⌊scale exactRounding n x + 1 / 2⌋₊ :=
  nearest_of_nonneg (scale_nonneg n hx)

/-- **The indices are in the order of the coordinates.** -/
theorem exactIndex_mono (n : ℕ) {x' : ℚ} (hx : |x| ≤ 1) (hx' : |x'| ≤ 1) (h : x ≤ x') :
    exactIndex n x ≤ exactIndex n x' := by
  rw [exactIndex_eq n hx, exactIndex_eq n hx']
  have hscale := scale_mono n h
  exact Nat.floor_le_floor (by linarith)

/-- The least coordinate falls into the first column or row. -/
theorem exactIndex_neg_one (n : ℕ) : exactIndex n (-1) = 0 := by
  have hzero : scale exactRounding n (-1) = (0 : ℕ) := by
    rw [scale_exact]
    norm_num
  rw [exactIndex, hzero, nearest_natCast]

/-- The greatest coordinate falls into the last column or row. -/
theorem exactIndex_one (n : ℕ) : exactIndex n 1 = n - 1 := by
  have hlast : scale exactRounding n 1 = (n - 1 : ℕ) := by
    rw [scale_exact]
    norm_num
  rw [exactIndex, hlast, nearest_natCast]

/-- **No coordinate leaves the grid.** -/
theorem exactIndex_le (n : ℕ) (hx : |x| ≤ 1) : exactIndex n x ≤ n - 1 := by
  rw [← exactIndex_one n]
  exact exactIndex_mono n hx (by norm_num) (abs_le.mp hx).2

/-- **Mirrored coordinates** fall into mirrored columns, unless they are halfway between two. -/
theorem exactIndex_mirror (hx : |x| ≤ 1) (h : ¬Halfway (scale exactRounding n x)) :
    exactIndex n (-x) = n - 1 - exactIndex n x := by
  have hx' : |-x| ≤ 1 := by rwa [abs_neg]
  have hle := exactIndex_le n hx
  have hnonneg := scale_nonneg n hx
  have hsum := scale_add_scale_neg n x
  rw [exactIndex_eq n hx] at hle ⊢
  rw [exactIndex_eq n hx', Nat.floor_eq_iff (by linarith [scale_nonneg n hx'])]
  generalize scale exactRounding n x = s at *
  have hlow : (⌊s + 1 / 2⌋₊ : ℚ) ≤ s + 1 / 2 := Nat.floor_le (by linarith)
  have hhigh : s + 1 / 2 < ⌊s + 1 / 2⌋₊ + 1 := Nat.lt_floor_add_one _
  -- only a half is rounded by exactly a half
  have hne : (⌊s + 1 / 2⌋₊ : ℚ) ≠ s + 1 / 2 := by
    intro heq
    have hpos : 0 < ⌊s + 1 / 2⌋₊ := by
      rw [← Nat.cast_pos (α := ℚ), heq]
      linarith
    refine h ⟨⌊s + 1 / 2⌋₊ - 1, ?_⟩
    rw [Nat.cast_pred hpos, heq]
    ring
  have hlt := lt_of_le_of_ne hlow hne
  rw [Nat.cast_sub hle]
  constructor <;> linarith

/-- Mirrored coordinates that are halfway between two columns both go to the later one. -/
theorem exactIndex_halfway (hn : 0 < n) (hx : |x| ≤ 1)
    (h : Halfway (scale exactRounding n x)) : exactIndex n x + exactIndex n (-x) = n := by
  have hx' : |-x| ≤ 1 := by rwa [abs_neg]
  have hsum := scale_add_scale_neg n x
  have hnonneg := scale_nonneg n hx'
  -- both halves are rounded up, so the indices add up to one more than the scaled places
  obtain ⟨k, hk⟩ := h
  have hleft : exactIndex n x = k + 1 := by
    rw [exactIndex_eq n hx, hk, Nat.floor_eq_iff (by positivity)]
    push_cast
    constructor <;> linarith
  have hlt : k + 1 ≤ n - 1 := by
    rw [← hleft]
    exact exactIndex_le n hx
  have hright : exactIndex n (-x) = n - 1 - k := by
    rw [exactIndex_eq n hx', Nat.floor_eq_iff (by linarith), Nat.cast_sub (by omega)]
    constructor <;> linarith
  omega

end Scale

/-- The coordinates from `-1` to `1` are spread over `n` columns or rows: in order, from the first
to the last, and evenly on both sides but for those that are halfway between two. -/
structure Spreads (n : ℕ) (index : ℚ → ℕ) : Prop where
  le_last : ∀ x, |x| ≤ 1 → index x ≤ n - 1
  mono : ∀ x x', |x| ≤ 1 → |x'| ≤ 1 → x ≤ x' → index x ≤ index x'
  first : index (-1) = 0
  last : index 1 = n - 1
  mirror : ∀ x, |x| ≤ 1 → ¬Halfway (scale exactRounding n x) → index (-x) = n - 1 - index x
  halfway : ∀ x, |x| ≤ 1 → Halfway (scale exactRounding n x) → index x + index (-x) = n

/-- **In exact numbers the coordinates are spread evenly**, among however many columns or rows. -/
theorem spreads_exactIndex {n : ℕ} (hn : 0 < n) : Spreads n (exactIndex n) where
  le_last _ := exactIndex_le n
  mono _ _ := exactIndex_mono n
  first := exactIndex_neg_one n
  last := exactIndex_one n
  mirror _ := exactIndex_mirror
  halfway _ := exactIndex_halfway hn

namespace Canvas

/-! ### Canvases over any kind of number -/

/-- The canvas reads its rule over doubles. -/
theorem plot_eq_plotBy (c : Canvas) (x y : Float) : c.plot x y = c.plotBy doubleRounding x y := rfl

/-- A point in the square falls into the cell of its indices. -/
private theorem cellBy?_exact (c : Canvas) {x y : ℚ} (hx : |x| ≤ 1) (hy : |y| ≤ 1) :
    c.cellBy? exactRounding x y = some (exactIndex c.columns x, exactIndex c.rows y) := by
  have hcolumn : cellIndex? exactRounding c.columns x = some (exactIndex c.columns x) :=
    if_pos (abs_le.mp hx)
  have hrow : cellIndex? exactRounding c.rows y = some (exactIndex c.rows y) :=
    if_pos (abs_le.mp hy)
  rw [cellBy?, hcolumn, hrow]
  rfl

/-! ### Shapes -/

/-- The canvas has so many columns and rows, and a mark for each cell. -/
structure HasShape (c : Canvas) (columns rows : ℕ) : Prop where
  columns_eq : c.columns = columns
  rows_eq : c.rows = rows
  size_eq : c.marks.size = columns * rows

section Shape

variable {c : Canvas} {columns rows : ℕ}

/-- A new canvas has the columns and rows that were asked for. -/
theorem hasShape_new (hcolumns : 0 < columns) (hrows : 0 < rows) :
    (new columns rows).HasShape columns rows := by
  have hwidth : max columns 1 = columns := max_eq_left hcolumns
  have hheight : max rows 1 = rows := max_eq_left hrows
  refine ⟨hwidth, hheight, Array.size_replicate.trans ?_⟩
  rw [hwidth, hheight]

/-- Marking a point changes marks only. -/
theorem HasShape.plot (hc : c.HasShape columns rows) (x y : Float) :
    (c.plot x y).2.HasShape columns rows := by
  rw [plot_eq]
  split
  · exact ⟨hc.columns_eq, hc.rows_eq, Array.size_setIfInBounds.trans hc.size_eq⟩
  · exact hc

/-- A step changes marks only. -/
theorem HasShape.perform (hc : c.HasShape columns rows) (step : Step) :
    (c.perform step).HasShape columns rows := by
  cases step with
  | plot x y => exact hc.plot x y
  | plotAll points =>
    change (c.plotAll points).2.HasShape columns rows
    unfold plotAll
    exact Array.foldl_induction (fun _ (drawn : ℕ × Canvas) => drawn.2.HasShape columns rows) hc
      fun i drawn hdrawn => hdrawn.plot points[i].1 points[i].2
  | clear => exact ⟨hc.columns_eq, hc.rows_eq, Array.size_replicate.trans hc.size_eq⟩

/-- A canvas keeps its shape through any run. -/
theorem HasShape.performAll (hc : c.HasShape columns rows) (steps : List Step) :
    (c.performAll steps).HasShape columns rows := by
  induction steps generalizing c with
  | nil => exact hc
  | cons step rest ih => exact ih (hc.perform step)

/-- A point in the square is drawn by writing the mark of its cell, which there is. -/
theorem HasShape.plotBy_exact (hc : c.HasShape columns rows) (hcolumns : 0 < columns)
    (hrows : 0 < rows) {x y : ℚ} (hx : |x| ≤ 1) (hy : |y| ≤ 1) :
    ∃ h : exactIndex rows y * columns + exactIndex columns x < c.marks.size,
      c.plotBy exactRounding x y = (true, { c with marks := c.marks.set _ true h }) := by
  have hcolumn : exactIndex columns x < columns := Nat.lt_of_le_pred hcolumns (exactIndex_le _ hx)
  have hrow : exactIndex rows y < rows := Nat.lt_of_le_pred hrows (exactIndex_le _ hy)
  have hindex : exactIndex rows y * columns + exactIndex columns x < c.marks.size :=
    hc.size_eq ▸ index_lt hcolumn hrow
  refine ⟨hindex, ?_⟩
  rw [plotBy, cellBy?_exact c hx hy, hc.columns_eq, hc.rows_eq]
  simp only [Array.setIfInBounds, hindex, dif_pos]

end Shape

/-- **Plotting cannot leave the grid.** In exact numbers every point in the square falls into a
column and a row that there are, whatever has been drawn before, so its mark is written in range.
The columns are in the order of the coordinates, from the first at `-1` to the last at `1`, and so
are the rows; and a coordinate and its negative are mirrored unless they are halfway between two
columns, in which case both go to the later one.

This is the rule of the canvas, which reads it over doubles; these are rounded like the fractions
that they stand for. -/
theorem exact_plots_stay_on_grid {columns rows : ℕ} (hcolumns : 0 < columns) (hrows : 0 < rows)
    (steps : List Step) :
    let c := (new columns rows).performAll steps
    (c.marks.size = columns * rows ∧ ∀ x y : ℚ, |x| ≤ 1 → |y| ≤ 1 →
      c.cellBy? exactRounding x y = some (exactIndex columns x, exactIndex rows y) ∧
      ∃ h : exactIndex rows y * columns + exactIndex columns x < c.marks.size,
        c.plotBy exactRounding x y = (true, { c with marks := c.marks.set _ true h })) ∧
    Spreads columns (exactIndex columns) ∧ Spreads rows (exactIndex rows) ∧
    (∀ x y : Float, c.plot x y = c.plotBy doubleRounding x y) ∧
    ∀ (x : Float) (negative : Bool) (m : ℕ) (e : ℤ), parts x = .finite negative m e →
      doubleRounding.nearest x =
        min (exactRounding.nearest ((if negative then -1 else 1) * (m * 2 ^ e))) maxCount := by
  intro c
  have hc : c.HasShape columns rows := (hasShape_new hcolumns hrows).performAll steps
  refine ⟨⟨hc.size_eq, fun x y hx hy => ⟨?_, hc.plotBy_exact hcolumns hrows hx hy⟩⟩,
    spreads_exactIndex hcolumns, spreads_exactIndex hrows, c.plot_eq_plotBy,
    fun x negative m e => doubleRounding_nearest⟩
  rw [cellBy?_exact c hx hy, hc.columns_eq, hc.rows_eq]

/-- With an even number of columns the centre is halfway between two. -/
theorem exact_plots_stay_on_grid_centre :
    let c := (new 4 1).performAll [.plot 1 1]
    (0 < 4 ∧ 0 < 1) ∧ Halfway (scale exactRounding 4 0) ∧
      exactIndex 4 0 + exactIndex 4 (-0) = 4 ∧
      ∃ h : exactIndex 1 1 * 4 + exactIndex 4 0 < c.marks.size,
        c.plotBy exactRounding 0 1 = (true, { c with marks := c.marks.set _ true h }) := by
  intro c
  obtain ⟨⟨-, hplot⟩, hspread, -⟩ :=
    exact_plots_stay_on_grid (by decide : 0 < 4) (by decide : 0 < 1) [.plot 1 1]
  have hhalf : Halfway (scale exactRounding 4 0) := ⟨1, by norm_num [scale_exact]⟩
  exact ⟨⟨by decide, by decide⟩, hhalf, hspread.halfway 0 (by norm_num) hhalf,
    (hplot 0 1 (by norm_num) (by norm_num)).2⟩

end Canvas

end PointScope

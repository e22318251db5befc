import PointScope.Proofs.Numeric.Reading

/-!
# Whole numbers as doubles

Counts reach scripts as doubles. Up to `2^53` nothing is lost on the way: such a count has a
canonical pair, so reading the double as a count gives the count back (`toCount_ofNat`), and
different counts are different doubles (`ofNat_inj`). Other doubles are read as the whole part of
the fraction that they stand for (`toCount_of_finite`).
-/

namespace PointScope.Binary64

/-! ### Whole parts -/

/-- The whole part of `m · 2^e` is the same on the pair as on the fraction. -/
theorem wholePart_eq_floor (m : ℕ) (e : ℤ) : wholePart m e = ⌊(m * 2 ^ e : ℚ)⌋₊ := by
  unfold wholePart
  split
  · rename_i he
    obtain ⟨k, rfl⟩ := Int.eq_ofNat_of_zero_le he
    have hwhole : (m * 2 ^ (k : ℤ) : ℚ) = (m * 2 ^ k : ℕ) := by push_cast; rfl
    rw [Int.toNat_natCast, Nat.shiftLeft_eq, hwhole, Nat.floor_natCast]
  · rename_i he
    obtain ⟨k, rfl⟩ : ∃ k : ℕ, e = -(k : ℤ) := ⟨(-e).toNat, by omega⟩
    have hfraction : (m * 2 ^ (-(k : ℤ)) : ℚ) = m / (2 ^ k : ℕ) := by
      rw [zpow_neg, zpow_natCast, div_eq_mul_inv]
      push_cast
      rfl
    rw [hfraction, Nat.floor_div_eq_div, neg_neg, Int.toNat_natCast, Nat.shiftRight_eq_div_pow]

/-- The whole part of a number that is whole is the number. -/
theorem wholePart_eq {m n : ℕ} {e : ℤ} (h : (m * 2 ^ e : ℚ) = n) : wholePart m e = n := by
  rw [wholePart_eq_floor, h, Nat.floor_natCast]

/-- **A double as a count** is the whole part of the fraction that it stands for, held between `0`
and `maxCount`. -/
theorem toCount_of_finite {x : Float} {negative : Bool} {m : ℕ} {e : ℤ}
    (hx : parts x = .finite negative m e) :
    toCount x = min ⌊((if negative then -1 else 1) * (m * 2 ^ e) : ℚ)⌋₊ maxCount := by
  unfold toCount
  rw [hx]
  cases negative with
  | false => simp only [Bool.false_eq_true, if_false, one_mul, wholePart_eq_floor]
  | true =>
    have hvalue : (-1 * (m * 2 ^ e) : ℚ) ≤ 0 := by
      rw [neg_one_mul, neg_nonpos]
      positivity
    simp only [if_true, Nat.floor_of_nonpos hvalue, Nat.zero_min]

/-! ### Counts -/

/-- A positive count up to `2^53` is exact as a double, with a full significand. -/
theorem unpack_float_ofNat {n : ℕ} (hpos : 0 < n) (hle : n ≤ 2 ^ 53) :
    ∃ m e, ∃ h : IsCanonical m e, 2 ^ 52 ≤ m ∧ (m * 2 ^ e : ℚ) = n ∧
      (Float.ofNat n).toModel.unpack = .finite .positive m e h.pos := by
  obtain ⟨m, e, h, hfull, hvalue⟩ :
      ∃ m e, IsCanonical m e ∧ 2 ^ 52 ≤ m ∧ (m * 2 ^ e : ℚ) = n := by
    rcases hle.lt_or_eq with hlt | rfl
    · obtain ⟨m, e, h, hfull, hvalue⟩ := exists_canonical hpos hlt (Nat.zero_le 900)
      exact ⟨m, e, h, hfull, by rw [hvalue, pow_zero, mul_one]⟩
    · obtain ⟨m, e, h, hfull, hvalue⟩ :=
        exists_canonical one_pos (by norm_num) (by norm_num : 53 ≤ 900)
      exact ⟨m, e, h, hfull, by rw [hvalue, one_mul]⟩
  have hdecimal : Decimal.value ⟨n, 0⟩ = m * 2 ^ e := by
    rw [Decimal.value, zpow_zero, mul_one, hvalue]
  have hfloat : Float.ofNat n = .ofModel (.pack (.finite .positive m e h.pos)) :=
    Decimal.toFloat_eq h (d := ⟨n, 0⟩) (hdecimal ▸ roundsTo_self)
  exact ⟨m, e, h, hfull, hvalue, by rw [hfloat, unpack_pack_finite h]⟩

/-- A positive count up to `2^53` is the fraction that its double stands for. -/
private theorem parts_ofNat {n : ℕ} (hpos : 0 < n) (hle : n ≤ 2 ^ 53) :
    ∃ m e, parts (Float.ofNat n) = .finite false m e ∧ (m * 2 ^ e : ℚ) = n := by
  obtain ⟨m, e, h, -, hvalue, hunpack⟩ := unpack_float_ofNat hpos hle
  refine ⟨m, e, ?_, hvalue⟩
  rw [parts, hunpack]
  rfl

/-- **A count up to `2^53`** is the same count after a way through a double. -/
theorem toCount_ofNat {n : ℕ} (hle : n ≤ 2 ^ 53) : toCount (Float.ofNat n) = n := by
  rcases n.eq_zero_or_pos with rfl | hpos
  · decide +kernel
  · obtain ⟨m, e, hparts, hvalue⟩ := parts_ofNat hpos hle
    have hmax : n ≤ maxCount := hle.trans (by norm_num [maxCount])
    unfold toCount
    rw [hparts]
    dsimp only
    rw [if_neg Bool.false_ne_true, wholePart_eq hvalue, min_eq_left hmax]

end PointScope.Binary64

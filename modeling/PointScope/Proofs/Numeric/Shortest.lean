import PointScope.Proofs.Numeric.Reading

/-!
# The shortest decimal reads back

Whatever grid the search stops at, the decimal that it returns lies in the interval around the
number (`Shortest.roundsTo_decimal`): a point of a grid is only returned after it has been compared
with the two ends of the interval, the exact value lies in its own interval, and moving trailing
zeros into the exponent does not change the value.
-/

namespace PointScope

open Binary64

/-! ### Units of a grid -/

/-- A number in units of a power of ten, as a fraction. -/
private theorem inUnits_eq (m : ℕ) (e p : ℤ) :
    ((inUnits m e p).1 : ℚ) = m * 2 ^ e / 10 ^ p * (inUnits m e p).2 ∧ 0 < (inUnits m e p).2 := by
  have htwo : ((2 : ℚ) ^ e.toNat) = 2 ^ e * 2 ^ (-e).toNat := by
    rw [← zpow_natCast, ← zpow_natCast, ← zpow_add₀ (by norm_num)]
    congr 1
    omega
  have hten : ((10 : ℚ) ^ (-p).toNat) = 10 ^ p.toNat / 10 ^ p := by
    rw [eq_div_iff (zpow_pos (by norm_num) p).ne', ← zpow_natCast, ← zpow_natCast,
      ← zpow_add₀ (by norm_num)]
    congr 1
    omega
  -- one of the two shifts and one of the two powers is by nothing
  unfold inUnits
  constructor
  · simp only [Nat.shiftLeft_eq, Nat.pow_eq]
    push_cast
    rw [htwo, hten]
    ring
  · simp only [Nat.shiftLeft_eq, Nat.pow_eq]
    positivity

namespace Shortest

section Grid

variable {m : ℕ} {e p : ℤ}

/-- A point of a grid that is found to read back lies in the interval. -/
theorem roundsTo_of_readsBack (hm : 0 < m) {c : ℕ}
    (h : readsBack m e (inUnits 1 (e - 2) p).1 (inUnits 1 (e - 2) p).2 c = true) :
    RoundsTo (c * 10 ^ p) m e := by
  obtain ⟨hquarter, hd⟩ := inUnits_eq 1 (e - 2) p
  generalize (inUnits 1 (e - 2) p).1 = quarter at h hquarter
  generalize (inUnits 1 (e - 2) p).2 = d at h hquarter hd
  -- both the interval and the point are measured in the same units
  have hscale : (0 : ℚ) < d / 10 ^ p :=
    div_pos (by exact_mod_cast hd) (zpow_pos (by norm_num) p)
  have hpoint : ((c * d : ℕ) : ℚ) = c * 10 ^ p * (d / 10 ^ p) := by
    have hten := (zpow_pos (by norm_num : (0 : ℚ) < 10) p).ne'
    push_cast
    field_simp
  have hend : ∀ a : ℕ, ((a * quarter : ℕ) : ℚ) = a * 2 ^ (e - 2) * (d / 10 ^ p) := by
    intro a
    push_cast
    rw [hquarter]
    ring
  have hunit : (2 : ℚ) ^ e = 4 * 2 ^ (e - 2) := by
    have hfour := two_zpow_add (e - 2) 2
    rw [Nat.cast_ofNat, sub_add_cancel] at hfour
    rw [hfour]
    norm_num
  have hgap : gapBelow m e ≤ 4 * m := by
    rcases gapBelow_cases m e with ⟨-, -, hgap⟩ | ⟨-, hgap⟩ <;> omega
  have hlow : (m - gapBelow m e / 4 : ℚ) * 2 ^ e = (4 * m - gapBelow m e : ℕ) * 2 ^ (e - 2) := by
    rw [hunit, Nat.cast_sub hgap]
    push_cast
    ring
  have hhigh : (m + 1 / 2 : ℚ) * 2 ^ e = (4 * m + 2 : ℕ) * 2 ^ (e - 2) := by
    rw [hunit]
    push_cast
    ring
  simp only [readsBack, ← Nat.sub_mul, ← Nat.add_mul] at h
  have hweak : (4 * m - gapBelow m e) * quarter ≤ c * d ∧ c * d ≤ (4 * m + 2) * quarter ∧
      (m % 2 = 1 → (4 * m - gapBelow m e) * quarter < c * d ∧ c * d < (4 * m + 2) * quarter) := by
    split at h
    · simp only [Bool.and_eq_true, decide_eq_true_eq] at h
      exact ⟨h.1, h.2, fun hodd => by omega⟩
    · simp only [Bool.and_eq_true, decide_eq_true_eq] at h
      exact ⟨h.1.le, h.2.le, fun _ => h⟩
  obtain ⟨hl, hh, htie⟩ := hweak
  refine ⟨?_, ?_, fun hodd => ⟨?_, ?_⟩⟩
  · rw [hlow]
    refine le_of_mul_le_mul_right ?_ hscale
    rw [← hend, ← hpoint]
    exact_mod_cast hl
  · rw [hhigh]
    refine le_of_mul_le_mul_right ?_ hscale
    rw [← hend, ← hpoint]
    exact_mod_cast hh
  · rw [hlow]
    refine lt_of_mul_lt_mul_right ?_ hscale.le
    rw [← hend, ← hpoint]
    exact_mod_cast (htie hodd).1
  · rw [hhigh]
    refine lt_of_mul_lt_mul_right ?_ hscale.le
    rw [← hend, ← hpoint]
    exact_mod_cast (htie hodd).2

/-- What a grid yields lies in the interval. -/
theorem roundsTo_of_onGrid? (hm : 0 < m) {d : Decimal} (h : onGrid? m e p = some d) :
    RoundsTo d.value m e := by
  unfold onGrid? at h
  dsimp only at h
  split at h
  · obtain rfl := Option.some.inj h
    exact roundsTo_of_readsBack hm ‹_›
  · split at h
    · obtain rfl := Option.some.inj h
      exact roundsTo_of_readsBack hm ‹_›
    · cases h

end Grid

/-! ### The search -/

private theorem value_exact (m : ℕ) (e : ℤ) : (exact m e).value = m * 2 ^ e := by
  unfold exact Decimal.value
  split
  · rename_i hsign
    obtain ⟨k, rfl⟩ := Int.eq_ofNat_of_zero_le hsign
    simp only [Nat.shiftLeft_eq, Int.toNat_natCast, zpow_zero, mul_one, zpow_natCast]
    push_cast
    rfl
  · rename_i hsign
    obtain ⟨k, hk⟩ := Int.eq_ofNat_of_zero_le (by omega : 0 ≤ -e)
    obtain rfl : e = -(k : ℤ) := by omega
    -- halving `k` times is multiplying by `5 ^ k` and moving the point
    have hten : (10 : ℚ) ^ k = 5 ^ k * 2 ^ k := by
      rw [← mul_pow]
      norm_num
    simp only [neg_neg, Int.toNat_natCast, zpow_neg, zpow_natCast, Nat.pow_eq]
    push_cast
    rw [hten]
    field_simp

/-- Trailing zeros can be moved into the exponent. -/
private theorem value_stripZeros (steps : ℕ) (d : Decimal) :
    (stripZeros steps d).value = d.value := by
  induction steps generalizing d with
  | zero => rfl
  | succ steps ih =>
    rw [stripZeros]
    split
    · rename_i hzero
      simp only [Bool.and_eq_true, decide_eq_true_eq] at hzero
      have hdigits : (d.digits : ℚ) = 10 * (d.digits / 10 : ℕ) := by
        have hdiv : d.digits = 10 * (d.digits / 10) := by omega
        exact_mod_cast hdiv
      rw [ih, Decimal.value, Decimal.value, hdigits, zpow_add₀ (by norm_num), zpow_one]
      ring
    · rfl

/-- **The decimal that the search returns lies in the interval** around the number. -/
theorem roundsTo_decimal {m : ℕ} (hm : 0 < m) (e : ℤ) : RoundsTo (decimal m e).value m e := by
  unfold decimal
  dsimp only
  rw [value_stripZeros]
  cases hfound : (List.range 17).findSome? fun n : ℕ => onGrid? m e (leadingPlace m e - n) with
  | none =>
    rw [Option.getD_none, value_exact]
    exact roundsTo_self
  | some d =>
    -- whichever grid it was found on
    obtain ⟨n, -, hgrid⟩ := List.exists_of_findSome?_eq_some hfound
    exact roundsTo_of_onGrid? hm hgrid

end Shortest

end PointScope

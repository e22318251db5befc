import PointScope.Numeric.Shortest
import PointScope.Proofs.Numeric.Packing

/-!
# Rounding

Every rational in the interval around a number that `RoundsTo` describes is rounded to that number
(`roundWithAccuracy_eq`): to the nearest significand, and of two equally near ones to the even one.

The significand on the way to the result is a whole part with a round bit and a sticky bit. What
the bits say about the fraction is `Extends`; dropping a bit of the whole part halves the number
that is described and keeps the description (`Extends.shiftRight`), so the last step, which rounds
the whole part, sees all that it needs.
-/

namespace PointScope.Binary64

open Float.Model Float.Model.UnpackedFloat

/-! ### The interval around a number -/

/-- The rationals that are read as the number `m · 2^e`: those nearer to it than to its neighbours,
and the midpoints if the significand is even. -/
structure RoundsTo (x : ℚ) (m : ℕ) (e : ℤ) : Prop where
  low : (m - Shortest.gapBelow m e / 4 : ℚ) * 2 ^ e ≤ x
  high : x ≤ (m + 1 / 2 : ℚ) * 2 ^ e
  tie : m % 2 = 1 → (m - Shortest.gapBelow m e / 4 : ℚ) * 2 ^ e < x ∧ x < (m + 1 / 2 : ℚ) * 2 ^ e

theorem two_zpow_pos (e : ℤ) : (0 : ℚ) < 2 ^ e := zpow_pos (by norm_num) e

theorem two_zpow_add (e : ℤ) (k : ℕ) : (2 : ℚ) ^ (e + k) = 2 ^ k * 2 ^ e := by
  rw [zpow_add₀ (by norm_num), mul_comm, zpow_natCast]

/-- The neighbour below is nearer than the one above exactly at a power of two that has one. -/
theorem gapBelow_cases (m : ℕ) (e : ℤ) :
    (m = 2 ^ 52 ∧ -1074 < e ∧ Shortest.gapBelow m e = 1) ∨
      (¬(m = 2 ^ 52 ∧ -1074 < e) ∧ Shortest.gapBelow m e = 2) := by
  unfold Shortest.gapBelow
  by_cases h : m = 2 ^ 52 ∧ -1074 < e
  · exact .inl ⟨h.1, h.2, by simp [h]⟩
  · exact .inr ⟨h, by simpa using h⟩

/-- A number rounds to itself. -/
theorem roundsTo_self {m : ℕ} {e : ℤ} : RoundsTo (m * 2 ^ e) m e := by
  have hpos := two_zpow_pos e
  have hgap : (0 : ℚ) < Shortest.gapBelow m e := by
    rcases gapBelow_cases m e with ⟨-, -, h⟩ | ⟨-, h⟩ <;> rw [h] <;> norm_num
  have hlow : (m - Shortest.gapBelow m e / 4 : ℚ) * 2 ^ e < m * 2 ^ e :=
    mul_lt_mul_of_pos_right (by linarith) hpos
  have hhigh : (m * 2 ^ e : ℚ) < (m + 1 / 2 : ℚ) * 2 ^ e :=
    mul_lt_mul_of_pos_right (by linarith) hpos
  exact ⟨hlow.le, hhigh.le, fun _ => ⟨hlow, hhigh⟩⟩

/-! ### Round bit and sticky bit -/

/-- What an accuracy says about the fraction that was cut off. -/
def Holds : Accuracy → ℚ → Prop
  | .exact, f => f = 0
  | .inexact .lt, f => 0 < f ∧ f < 1 / 2
  | .inexact .eq, f => f = 1 / 2
  | .inexact .gt, f => 1 / 2 < f ∧ f < 1

/-- What a round bit counts for. -/
def half (b : Bool) : ℚ := if b then 1 / 2 else 0

/-- An extended significand describes a number: it consists of the whole part, what the round bit
counts for, and a rest below a half, of which the sticky bit says whether there is any. -/
def Extends (em : ExtendedMantissa) (y : ℚ) : Prop :=
  ∃ rest : ℚ, y = em.mantissa + half em.roundBit + rest ∧ 0 ≤ rest ∧ rest < 1 / 2 ∧
    (em.stickyBit = true ↔ 0 < rest)

/-- A mantissa and an accuracy stand for the numbers whose fraction the accuracy holds of. -/
theorem extends_ofMantissaAndAccuracy {acc : Accuracy} {f : ℚ} (h : Holds acc f) (m : ℕ) :
    Extends (.ofMantissaAndAccuracy m acc) (m + f) := by
  -- the four accuracies: exact, below half, half, above half
  rcases acc with _ | _ | _ | _
  · obtain rfl : f = 0 := h
    exact ⟨0, by simp [ExtendedMantissa.ofMantissaAndAccuracy, half], le_rfl, by norm_num,
      by simp [ExtendedMantissa.ofMantissaAndAccuracy]⟩
  · obtain ⟨hpos, hlt⟩ : 0 < f ∧ f < 1 / 2 := h
    exact ⟨f, by simp [ExtendedMantissa.ofMantissaAndAccuracy, half], hpos.le, hlt,
      by simp [ExtendedMantissa.ofMantissaAndAccuracy, hpos]⟩
  · obtain rfl : f = 1 / 2 := h
    exact ⟨0, by simp [ExtendedMantissa.ofMantissaAndAccuracy, half], le_rfl, by norm_num,
      by simp [ExtendedMantissa.ofMantissaAndAccuracy]⟩
  · obtain ⟨hgt, hlt⟩ : 1 / 2 < f ∧ f < 1 := h
    refine ⟨f - 1 / 2, ?_, by linarith, by linarith, ?_⟩
    · simp only [ExtendedMantissa.ofMantissaAndAccuracy, half, if_true]
      ring
    · simp only [ExtendedMantissa.ofMantissaAndAccuracy, true_iff]
      linarith

/-- A mantissa that is shifted stands for half the numbers. -/
private theorem Extends.shiftRightOne {em : ExtendedMantissa} {y : ℚ} (h : Extends em y) :
    Extends em.shiftRightOne (y / 2) := by
  obtain ⟨rest, rfl, hrest, hlt, hsticky⟩ := h
  have hhalf : 0 ≤ half em.roundBit ∧ half em.roundBit ≤ 1 / 2 := by
    cases em.roundBit <;> norm_num [half]
  have hm : (em.mantissa : ℚ) / 2 = (em.mantissa / 2 : ℕ) + half (em.mantissa % 2 != 0) := by
    have hdiv : (em.mantissa : ℚ) = 2 * (em.mantissa / 2 : ℕ) + (em.mantissa % 2 : ℕ) := by
      exact_mod_cast (Nat.div_add_mod em.mantissa 2).symm
    rcases Nat.mod_two_eq_zero_or_one em.mantissa with hbit | hbit <;>
      simp only [hdiv, hbit, half] <;> norm_num
    ring
  -- the old round bit and the old rest make up the new rest
  refine ⟨(half em.roundBit + rest) / 2, ?_, by linarith, by linarith, ?_⟩
  · change _ = ((em.mantissa / 2 : ℕ) : ℚ) + half (em.mantissa % 2 != 0) + _
    linarith
  · change (em.roundBit || em.stickyBit) = true ↔ _
    rw [Bool.or_eq_true, hsticky]
    cases em.roundBit with
    | false => simp [half]
    | true =>
      simp only [true_or, half, if_true, true_iff]
      linarith

/-- Dropping bits of the whole part keeps the description. -/
theorem Extends.shiftRight {em : ExtendedMantissa} {y : ℚ} (h : Extends em y) (n : ℕ) :
    Extends (em >>> n) (y / 2 ^ n) := by
  change Extends (n.repeat ExtendedMantissa.shiftRightOne em) _
  induction n with
  | zero => simpa [Nat.repeat] using h
  | succ n ih =>
    rw [Nat.repeat, pow_succ, ← div_div]
    exact ih.shiftRightOne

/-- The rounded significand is the nearest one, of two equally near ones the even one. -/
private theorem Extends.roundedMantissa_eq {em : ExtendedMantissa} {y : ℚ} (h : Extends em y)
    {m : ℕ}
    (hlow : (m - 1 / 2 : ℚ) ≤ y) (hhigh : y ≤ m + 1 / 2)
    (htie : m % 2 = 1 → (m - 1 / 2 : ℚ) < y ∧ y < m + 1 / 2) : em.roundedMantissa = m := by
  obtain ⟨rest, hy, hrest, hlt, hsticky⟩ := h
  obtain ⟨k, roundBit, stickyBit⟩ := em
  cases roundBit with
  | false =>
    -- the whole part is nearer than the next one
    have hround : (ExtendedMantissa.mk k false stickyBit).roundedMantissa = k := by
      cases stickyBit <;> rfl
    simp only [half, Bool.false_eq_true, if_false] at hy
    have hle : (m : ℚ) < k + 1 := by linarith
    have hge : (k : ℚ) < m + 1 := by linarith
    norm_cast at hle hge
    omega
  | true =>
    simp only [half, if_true] at hy
    have hle : (m : ℚ) < k + 2 := by linarith
    have hge : (k : ℚ) < m + 1 := by linarith
    norm_cast at hle hge
    cases stickyBit with
    | false =>
      -- the number is a midpoint
      have hzero : rest = 0 := le_antisymm (not_lt.mp fun h => by simpa using hsticky.mpr h) hrest
      change k + k % 2 = m
      rcases Nat.mod_two_eq_zero_or_one m with heven | hodd
      · omega
      · obtain ⟨hlow, hhigh⟩ := htie hodd
        have hlt : (m : ℚ) < k + 1 := by linarith
        have hgt : (k : ℚ) < m := by linarith
        norm_cast at hlt hgt
        omega
    | true =>
      -- the next whole number is nearer than the whole part
      have hpos : 0 < rest := hsticky.mp rfl
      have hgt : (k : ℚ) < m := by linarith
      norm_cast at hgt
      change k + 1 = m
      omega

/-! ### Rounding to a number -/

/-- The exponent that rounding aims at leaves 53 digits, or as many as the least exponent allows. -/
theorem targetExponent_eq (m : ℕ) (e : ℤ) :
    Format.binary64.targetExponent (totalExponent m e) = max (m.log2 + e - 52) (-1074) := by
  simp only [Format.targetExponent, totalExponent, Format.mantissaBits, Format.minExponent]
  norm_num
  omega

/-- Shifting up to an exponent describes the same number in units of that exponent. -/
theorem shiftToExponent_extends {acc : Accuracy} {f : ℚ} (hacc : Holds acc f) {m : ℕ} {e t : ℤ}
    (het : e ≤ t) :
    (shiftToExponent m e acc t).2 = t ∧
      Extends (shiftToExponent m e acc t).1 ((m + f) * 2 ^ e / 2 ^ t) := by
  have ht : e + (t - e).toNat = t := by omega
  have hscale : ((m + f) * 2 ^ e / 2 ^ t : ℚ) = (m + f) / 2 ^ (t - e).toNat := by
    have hpos := two_zpow_pos e
    conv_lhs => rw [← ht, two_zpow_add]
    field_simp
  rw [hscale]
  exact ⟨ht, (extends_ofMantissaAndAccuracy hacc m).shiftRight _⟩

/-- A significand that needs no more shifting is kept. -/
theorem shiftToTargetExponent_canonical {m : ℕ} {e : ℤ} (h : IsCanonical m e) :
    (shiftToTargetExponent Format.binary64 m e .exact).1.mantissa = m ∧
      (shiftToTargetExponent Format.binary64 m e .exact).2 = e := by
  have hlog := (Nat.log2_lt h.pos.ne').mpr h.lt
  have hge := h.exponent_ge
  have ht : (Format.binary64.targetExponent (totalExponent m e) - e).toNat = 0 := by
    rw [targetExponent_eq]
    omega
  simp only [shiftToTargetExponent, shiftToExponent, ht]
  exact ⟨rfl, by omega⟩

/-- A significand that rounding has carried into a further bit loses it again. -/
theorem shiftToTargetExponent_carry {e : ℤ} (he : -1074 < e) :
    (shiftToTargetExponent Format.binary64 (2 ^ 53) (e - 1) .exact).1.mantissa = 2 ^ 52 ∧
      (shiftToTargetExponent Format.binary64 (2 ^ 53) (e - 1) .exact).2 = e := by
  have ht :
      (Format.binary64.targetExponent (totalExponent (2 ^ 53) (e - 1)) - (e - 1)).toNat = 1 := by
    rw [targetExponent_eq, Nat.log2_two_pow]
    omega
  simp only [shiftToTargetExponent, shiftToExponent, ht]
  exact ⟨rfl, by omega⟩

section Interval

variable {m : ℕ} {e : ℤ} {x : ℚ} (h : IsCanonical m e) (hx : RoundsTo x m e)

include h hx in
/-- Nothing that rounds to a number with exponent `e` reaches beyond 53 bits. -/
theorem RoundsTo.lt : x < 2 ^ (e + 53) := by
  have hm : (m : ℚ) ≤ 2 ^ 53 - 1 := by
    have hle : m + 1 ≤ 2 ^ 53 := h.lt
    have hcast : (m + 1 : ℚ) ≤ 2 ^ 53 := by exact_mod_cast hle
    linarith
  calc x ≤ (m + 1 / 2 : ℚ) * 2 ^ e := hx.high
    _ < 2 ^ (53 : ℕ) * 2 ^ e := mul_lt_mul_of_pos_right (by linarith) (two_zpow_pos e)
    _ = 2 ^ (e + 53) := (two_zpow_add e 53).symm

include h hx in
/-- What rounds to a full significand has all its bits, or one fewer at a power of two. -/
theorem RoundsTo.gt (he : -1074 < e) :
    2 ^ (e + 51) < x ∧ (m ≠ 2 ^ 52 → 2 ^ (e + 52) < x) := by
  have hfull : 2 ^ 52 ≤ m := h.full.resolve_right (by omega)
  have hpos := two_zpow_pos e
  have h51 : (2 : ℚ) ^ (e + 51) = 2 ^ 51 * 2 ^ e := two_zpow_add e 51
  have h52 : (2 : ℚ) ^ (e + 52) = 2 ^ 52 * 2 ^ e := two_zpow_add e 52
  have hcast : ((2 : ℚ) ^ 52) ≤ m := by exact_mod_cast hfull
  -- below a power of two the doubles stand twice as close
  rcases gapBelow_cases m e with ⟨hm, -, hgap⟩ | ⟨hne, hgap⟩
  · refine ⟨?_, fun hne => absurd hm hne⟩
    refine lt_of_lt_of_le ?_ hx.low
    rw [hgap, h51]
    refine mul_lt_mul_of_pos_right ?_ hpos
    push_cast
    linarith
  · have hmore : 2 ^ 52 + 1 ≤ m := by omega
    have hmore : ((2 : ℚ) ^ 52 + 1) ≤ m := by exact_mod_cast hmore
    have hlow : (2 : ℚ) ^ (e + 52) < x := by
      refine lt_of_lt_of_le ?_ hx.low
      rw [hgap, h52]
      refine mul_lt_mul_of_pos_right ?_ hpos
      push_cast
      linarith
    refine ⟨lt_trans ?_ hlow, fun _ => hlow⟩
    exact zpow_lt_zpow_right₀ (by norm_num) (by omega)

include hx in
/-- In units of the last place, what rounds to a number is half a unit away at most. -/
private theorem RoundsTo.scaled : (m - 1 / 2 : ℚ) ≤ x / 2 ^ e ∧ x / 2 ^ e ≤ m + 1 / 2 ∧
    (m % 2 = 1 → (m - 1 / 2 : ℚ) < x / 2 ^ e ∧ x / 2 ^ e < m + 1 / 2) := by
  have hpos := two_zpow_pos e
  have hgap : (Shortest.gapBelow m e : ℚ) / 4 ≤ 1 / 2 := by
    rcases gapBelow_cases m e with ⟨-, -, hgap⟩ | ⟨-, hgap⟩ <;> rw [hgap] <;> norm_num
  rw [le_div_iff₀ hpos, div_le_iff₀ hpos, lt_div_iff₀ hpos, div_lt_iff₀ hpos]
  have hlow : (m - 1 / 2 : ℚ) * 2 ^ e ≤ (m - Shortest.gapBelow m e / 4 : ℚ) * 2 ^ e :=
    mul_le_mul_of_nonneg_right (by linarith) hpos.le
  refine ⟨hlow.trans hx.low, hx.high, fun hodd => ?_⟩
  obtain ⟨hlow', hhigh'⟩ := hx.tie hodd
  exact ⟨lt_of_le_of_lt hlow hlow', hhigh'⟩

end Interval

/-- An accuracy tells about fractions of one. -/
theorem Holds.bounds {acc : Accuracy} {f : ℚ} (h : Holds acc f) : 0 ≤ f ∧ f < 1 := by
  rcases acc with _ | _ | _ | _ <;> simp only [Holds] at h
  · rw [h]
    norm_num
  · exact ⟨h.1.le, by linarith⟩
  · rw [h]
    norm_num
  · exact ⟨by linarith, h.2⟩

section Round

variable {m n : ℕ} {e k : ℤ} {acc : Accuracy} {f : ℚ}

/-- The exponent that rounding aims at is that of the number in whose interval the value lies. Only
below a power of two may it be one less. -/
private theorem targetExponent_cases (h : IsCanonical m e) (hacc : Holds acc f)
    (hx : RoundsTo ((n + f) * 2 ^ k) m e) {t : ℤ}
    (ht : Format.binary64.targetExponent (totalExponent n k) = t) (hk : k ≤ t) :
    t = e ∨ (t = e - 1 ∧ -1074 < e ∧ m = 2 ^ 52 ∧ (n + f) * 2 ^ k < (2 : ℚ) ^ (e + 52)) := by
  obtain ⟨hf, hf1⟩ := hacc.bounds
  have hge := h.exponent_ge
  have hpos := two_zpow_pos k
  rw [targetExponent_eq] at ht
  -- the bits of the whole part bound the value from above, and so the exponent from below
  have hlt : (n + f) * 2 ^ k < (2 : ℚ) ^ (k + (n.log2 + 1 : ℕ)) := by
    have hn : n + 1 ≤ 2 ^ (n.log2 + 1) := Nat.lt_log2_self
    have hcast : (n + 1 : ℚ) ≤ 2 ^ (n.log2 + 1) := by exact_mod_cast hn
    rw [two_zpow_add]
    exact mul_lt_mul_of_pos_right (by linarith) hpos
  have hle : t ≤ e := by
    rcases Nat.eq_zero_or_pos n with rfl | hn
    · simp only [Nat.log2_zero] at ht
      omega
    · have hlog : (2 : ℚ) ^ n.log2 ≤ n := by exact_mod_cast Nat.log2_self_le hn.ne'
      have hvalue : (2 : ℚ) ^ (k + n.log2) ≤ (n + f) * 2 ^ k := by
        rw [two_zpow_add]
        exact mul_le_mul_of_nonneg_right (by linarith) hpos.le
      have hexp := (zpow_lt_zpow_iff_right₀ (by norm_num)).mp (lt_of_le_of_lt hvalue (hx.lt h))
      omega
  rcases lt_or_eq_of_le hge with he | rfl
  · obtain ⟨hlow, hfull⟩ := hx.gt h he
    have hexp := (zpow_lt_zpow_iff_right₀ (by norm_num)).mp (lt_trans hlow hlt)
    by_cases hm : m = 2 ^ 52
    · rcases lt_or_eq_of_le hle with hless | rfl
      · refine .inr ⟨by omega, he, hm, lt_of_lt_of_le hlt ?_⟩
        exact zpow_le_zpow_right₀ (by norm_num) (by omega)
      · exact .inl rfl
    · have hexp := (zpow_lt_zpow_iff_right₀ (by norm_num)).mp (lt_trans (hfull hm) hlt)
      left
      omega
  · left
    omega

/-- A value just below a power of two is rounded up to it: all 53 bits of the significand carry. -/
private theorem roundedMantissa_carry (hacc : Holds acc f) (he : -1074 < e) (hk : k ≤ e - 1)
    (hx : RoundsTo ((n + f) * 2 ^ k) (2 ^ 52) e) (hlt : (n + f) * 2 ^ k < (2 : ℚ) ^ (e + 52)) :
    (shiftToExponent n k acc (e - 1)).1.roundedMantissa = 2 ^ 53 := by
  have hextends := (shiftToExponent_extends hacc (m := n) hk).2
  have hpos := two_zpow_pos (e - 1)
  have hunit : (2 : ℚ) ^ e = 2 * 2 ^ (e - 1) := by
    have hone := two_zpow_add (e - 1) 1
    rwa [Nat.cast_one, sub_add_cancel, pow_one] at hone
  have hgap : Shortest.gapBelow (2 ^ 52) e = 1 := by
    rcases gapBelow_cases (2 ^ 52) e with ⟨-, -, hgap⟩ | ⟨hne, -⟩
    · exact hgap
    · exact absurd ⟨rfl, he⟩ hne
  have hlow := hx.low
  have h52 : (2 : ℚ) ^ (e + 52) = 2 ^ 52 * 2 ^ e := two_zpow_add e 52
  rw [hgap, hunit] at hlow
  rw [h52, hunit] at hlt
  -- one exponent lower the number is nearest to `2 ^ 53`
  refine hextends.roundedMantissa_eq ?_ ?_ (by norm_num)
  · rw [le_div_iff₀ hpos]
    refine le_trans (le_of_eq ?_) hlow
    push_cast
    ring
  · rw [div_le_iff₀ hpos]
    refine hlt.le.trans ?_
    rw [← mul_assoc]
    refine mul_le_mul_of_nonneg_right ?_ hpos.le
    push_cast
    norm_num

/-- **Rounding is to the nearest.** A value that is described by a whole part, an exponent and an
accuracy is rounded to the number in whose interval it lies, if the exponent is not above that of
the number. -/
theorem roundWithAccuracy_eq (h : IsCanonical m e) (hacc : Holds acc f)
    (hx : RoundsTo ((n + f) * 2 ^ k) m e)
    (hk : k ≤ Format.binary64.targetExponent (totalExponent n k)) (s : Sign) :
    roundWithAccuracy Format.binary64 s n k acc = .finite s m e h.pos := by
  generalize ht : Format.binary64.targetExponent (totalExponent n k) = t at hk
  obtain ⟨htarget, hextends⟩ := shiftToExponent_extends hacc (m := n) hk
  have hfirst : shiftToTargetExponent Format.binary64 n k acc = shiftToExponent n k acc t := by
    rw [shiftToTargetExponent, ht]
  unfold roundWithAccuracy
  simp only [hfirst, htarget]
  rcases targetExponent_cases h hacc hx ht hk with rfl | ⟨rfl, he, rfl, hlt⟩
  · obtain ⟨hlow, hhigh, htie⟩ := hx.scaled
    have hrounded := hextends.roundedMantissa_eq hlow hhigh htie
    obtain ⟨hm, he⟩ := shiftToTargetExponent_canonical h
    simp only [hrounded, hm, he]
    rw [dif_neg h.pos.ne']
  · -- the significand is rounded up to the power of two, and the second shift normalizes it
    have hrounded := roundedMantissa_carry hacc he hk hx hlt
    obtain ⟨hm, he⟩ := shiftToTargetExponent_carry he
    simp only [hrounded, hm, he]
    rw [dif_neg (by norm_num)]

end Round

end PointScope.Binary64

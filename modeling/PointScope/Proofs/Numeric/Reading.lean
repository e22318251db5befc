import PointScope.Proofs.Numeric.Rounding

/-!
# Reading decimals

A decimal whose value lies in the interval around a number is read as that number
(`Decimal.toFloat_eq`), whether it is read by one multiplication or division of numbers that are
exact or by way of whole numbers of any length. Reading a decimal never gives a negative number
(`Decimal.isUnsigned_toFloat`).
-/

namespace PointScope.Binary64

open Float.Model Float.Model.UnpackedFloat

/-! ### Products and quotients -/

section Operations

variable {m m₁ m₂ : ℕ} {e e₁ e₂ : ℤ} (h : IsCanonical m e)

include h

omit h in
/-- The product of the significands, with as many bits as rounding needs, makes up the product. -/
theorem mul_spec (hfull : 2 ^ 52 ≤ m₁ * m₂) :
    (m₁ * 2 ^ e₁ * (m₂ * 2 ^ e₂) : ℚ) = ((m₁ * m₂ : ℕ) + 0) * 2 ^ (e₁ + e₂) ∧
      e₁ + e₂ ≤ Format.binary64.targetExponent (totalExponent (m₁ * m₂) (e₁ + e₂)) := by
  constructor
  · rw [zpow_add₀ (by norm_num)]
    push_cast
    ring
  · have hlog := (Nat.le_log2 (lt_of_lt_of_le (by norm_num) hfull).ne').mpr hfull
    rw [targetExponent_eq]
    omega

/-- A product is rounded to the number in whose interval it lies. -/
theorem mul_eq (hm₁ : 0 < m₁) (hm₂ : 0 < m₂)
    (hx : RoundsTo (m₁ * 2 ^ e₁ * (m₂ * 2 ^ e₂)) m e) (hfull : 2 ^ 52 ≤ m₁ * m₂) :
    mul Format.binary64 (.finite .positive m₁ e₁ hm₁) (.finite .positive m₂ e₂ hm₂) =
      .finite .positive m e h.pos := by
  obtain ⟨hvalue, hle⟩ := mul_spec hfull
  rw [hvalue] at hx
  have hexact : Holds .exact 0 := rfl
  exact roundWithAccuracy_eq h hexact hx hle .positive

omit h in
/-- The accuracy that is computed from a remainder holds of the fraction that is left over. -/
private theorem holds_accuracyOfFraction {num den : ℕ} (hlt : num < den) :
    Holds (accuracyOfFraction num den) (num / den) := by
  have hden : (0 : ℚ) < den := by exact_mod_cast Nat.zero_lt_of_lt hlt
  unfold accuracyOfFraction
  split
  · rename_i hzero
    rw [hzero, Nat.cast_zero, zero_div]
    rfl
  · rename_i hne
    have hnum : (0 : ℚ) < num := by exact_mod_cast Nat.pos_of_ne_zero hne
    have hone : (num / den : ℚ) < 1 := by
      rw [div_lt_one hden]
      exact_mod_cast hlt
    cases hcompare : compare (2 * num) den with
    | lt =>
      have hhalf : (2 * num : ℚ) < den := by exact_mod_cast compare_lt_iff_lt.mp hcompare
      exact ⟨div_pos hnum hden, by rw [div_lt_iff₀ hden]; linarith⟩
    | eq =>
      have hhalf : (2 * num : ℚ) = den := by exact_mod_cast compare_eq_iff_eq.mp hcompare
      change (num / den : ℚ) = 1 / 2
      rw [div_eq_iff hden.ne']
      linarith
    | gt =>
      have hhalf : (den : ℚ) < 2 * num := by exact_mod_cast compare_gt_iff_gt.mp hcompare
      exact ⟨by rw [lt_div_iff₀ hden]; linarith, hone⟩

omit h in
/-- A quotient is computed with as many bits as rounding needs. -/
private theorem divCore_exponent_le (hm₁ : 0 < m₁) (hm₂ : 0 < m₂) {s : ℕ} {t : ℤ}
    (ht : t ≤ Format.binary64.targetExponent (totalExponent m₁ e₁ - totalExponent m₂ e₂))
    (hs : e₁ - e₂ = t + s) :
    t ≤ Format.binary64.targetExponent (totalExponent (m₁ * 2 ^ s / m₂) t) := by
  rw [targetExponent_eq]
  -- at the least exponent no bits are needed
  by_cases hleast : t ≤ -1074
  · omega
  have hbits : m₂.log2 + 53 ≤ m₁.log2 + s := by
    simp only [Format.targetExponent, totalExponent, Format.mantissaBits, Format.minExponent] at ht
    norm_num at ht
    omega
  have hquotient : 2 ^ 52 ≤ m₁ * 2 ^ s / m₂ := by
    rw [Nat.le_div_iff_mul_le hm₂]
    calc 2 ^ 52 * m₂ ≤ 2 ^ 52 * 2 ^ (m₂.log2 + 1) := Nat.mul_le_mul_left _ Nat.lt_log2_self.le
      _ = 2 ^ (m₂.log2 + 53) := by rw [← pow_add]; congr 1; omega
      _ ≤ 2 ^ (m₁.log2 + s) := Nat.pow_le_pow_right (by norm_num) hbits
      _ = 2 ^ m₁.log2 * 2 ^ s := pow_add ..
      _ ≤ m₁ * 2 ^ s := Nat.mul_le_mul_right _ (Nat.log2_self_le hm₁.ne')
  have hlog := (Nat.le_log2 (lt_of_lt_of_le (by norm_num) hquotient).ne').mpr hquotient
  omega

omit h in
/-- The quotient of the significands and what its remainder says make up the quotient. -/
theorem divCore_spec (hm₁ : 0 < m₁) (hm₂ : 0 < m₂) {n : ℕ} {t : ℤ} {acc : Accuracy}
    (hcore : divCore Format.binary64 m₁ e₁ m₂ e₂ = (n, t, acc)) :
    ∃ f, Holds acc f ∧ (m₁ * 2 ^ e₁ / (m₂ * 2 ^ e₂) : ℚ) = (n + f) * 2 ^ t ∧
      t ≤ Format.binary64.targetExponent (totalExponent n t) := by
  unfold divCore at hcore
  dsimp only at hcore
  generalize ht : min (e₁ - e₂) (Format.binary64.targetExponent
    (totalExponent m₁ e₁ - totalExponent m₂ e₂)) = t' at hcore
  generalize hs : (e₁ - e₂ - t').toNat = s at hcore
  rw [Nat.shiftLeft_eq] at hcore
  cases hcore
  have hts : e₁ - e₂ = t + s := by omega
  refine ⟨_, holds_accuracyOfFraction (Nat.mod_lt _ hm₂), ?_,
    divCore_exponent_le hm₁ hm₂ (by omega) hts⟩
  have hden : (0 : ℚ) < m₂ := by exact_mod_cast hm₂
  have hdiv : (m₁ * 2 ^ s : ℚ) = m₂ * (m₁ * 2 ^ s / m₂ : ℕ) + (m₁ * 2 ^ s % m₂ : ℕ) := by
    exact_mod_cast (Nat.div_add_mod (m₁ * 2 ^ s) m₂).symm
  have hpower : (2 : ℚ) ^ e₁ = 2 ^ s * 2 ^ t * 2 ^ e₂ := by
    rw [← two_zpow_add, ← hts, ← zpow_add₀ (by norm_num), sub_add_cancel]
  have hpos := two_zpow_pos e₂
  rw [hpower]
  field_simp
  linarith

/-- A quotient is rounded to the number in whose interval it lies. -/
theorem div_eq (hm₁ : 0 < m₁) (hm₂ : 0 < m₂)
    (hx : RoundsTo (m₁ * 2 ^ e₁ / (m₂ * 2 ^ e₂)) m e) :
    div Format.binary64 (.finite .positive m₁ e₁ hm₁) (.finite .positive m₂ e₂ hm₂) =
      .finite .positive m e h.pos := by
  change roundWithAccuracy Format.binary64 .positive (divCore Format.binary64 m₁ e₁ m₂ e₂).1
    (divCore Format.binary64 m₁ e₁ m₂ e₂).2.1 (divCore Format.binary64 m₁ e₁ m₂ e₂).2.2 = _
  obtain ⟨f, hf, hvalue, hle⟩ := divCore_spec hm₁ hm₂ (rfl : divCore _ m₁ e₁ m₂ e₂ = (_, _, _))
  rw [hvalue] at hx
  exact roundWithAccuracy_eq h hf hx hle .positive

end Operations

/-! ### Whole numbers that are exact -/

/-- A product of a power of two and fewer than 53 bits has a canonical pair. -/
theorem exists_canonical {a j : ℕ} (ha : 0 < a) (hlt : a < 2 ^ 53) (hj : j ≤ 900) :
    ∃ m e, IsCanonical m e ∧ 2 ^ 52 ≤ m ∧ (m * 2 ^ e : ℚ) = (a * 2 ^ j : ℕ) := by
  have hlog := (Nat.log2_lt ha.ne').mpr hlt
  obtain ⟨k, hk⟩ : ∃ k, a.log2 + k = 52 := ⟨52 - a.log2, by omega⟩
  have hlow : 2 ^ 52 ≤ a * 2 ^ k := by
    rw [← hk, pow_add]
    exact Nat.mul_le_mul_right _ (Nat.log2_self_le ha.ne')
  have hhigh : a * 2 ^ k < 2 ^ 53 := by
    have hbits : 53 = a.log2 + 1 + k := by omega
    rw [hbits, pow_add]
    exact Nat.mul_lt_mul_of_pos_right Nat.lt_log2_self (Nat.two_pow_pos k)
  -- the digits are shifted up until the significand is full
  refine ⟨a * 2 ^ k, j - k, ⟨by omega, hhigh, by omega, by omega, .inl hlow⟩, hlow, ?_⟩
  have hpower := two_zpow_add (j - k) k
  rw [sub_add_cancel, zpow_natCast] at hpower
  push_cast
  rw [hpower]
  ring

private theorem log2_mul_two_pow {n : ℕ} (hn : 0 < n) (s : ℕ) : (n * 2 ^ s).log2 = n.log2 + s := by
  have hlow := Nat.log2_self_le hn.ne'
  have hhigh := Nat.lt_log2_self (n := n)
  rw [Nat.log2_eq_iff (Nat.mul_pos hn (Nat.two_pow_pos s)).ne', pow_add, Nat.add_right_comm,
    pow_add]
  exact ⟨Nat.mul_le_mul_right _ hlow, Nat.mul_lt_mul_of_pos_right hhigh (Nat.two_pow_pos s)⟩

/-- A significand is given as many bits as rounding needs, which does not change the value. -/
theorem round_spec {n : ℕ} (hn : 0 < n) (k : ℤ) (s : Sign) :
    ∃ n' k', UnpackedFloat.round Format.binary64 s n k =
        roundWithAccuracy Format.binary64 s n' k' .exact ∧
      (n' * 2 ^ k' : ℚ) = n * 2 ^ k ∧
        k' ≤ Format.binary64.targetExponent (totalExponent n' k') := by
  generalize ht : Format.binary64.targetExponent (totalExponent n k) = t
  generalize hj : (k - t).toNat = j
  refine ⟨n * 2 ^ j, k - j, ?_, ?_, ?_⟩
  · unfold UnpackedFloat.round decreaseExponent
    dsimp only
    rw [ht, hj, Nat.shiftLeft_eq]
  · have hpower := two_zpow_add (k - j) j
    rw [sub_add_cancel] at hpower
    push_cast
    rw [hpower]
    ring
  · rw [targetExponent_eq] at ht ⊢
    rw [log2_mul_two_pow hn]
    omega

/-- A whole number that has a canonical pair is exact. -/
private theorem unpack_ofNat {n m : ℕ} {e : ℤ} (h : IsCanonical m e)
    (hvalue : (m * 2 ^ e : ℚ) = n) :
    (Float.Model.ofNat n).unpack = .finite .positive m e h.pos := by
  have hpos : 0 < n := by
    have hm : (0 : ℚ) < m := by exact_mod_cast h.pos
    have hn : (0 : ℚ) < n := hvalue ▸ mul_pos hm (two_zpow_pos e)
    exact_mod_cast hn
  -- the number is exact, so rounding it gives it back
  have hround : UnpackedFloat.ofNat Format.binary64 n = .finite .positive m e h.pos := by
    unfold UnpackedFloat.ofNat UnpackedFloat.ofInt UnpackedFloat.normalize
    rw [compare_gt_iff_gt.mpr (by omega : (n : ℤ) > 0)]
    dsimp only
    rw [Int.toNat_natCast]
    obtain ⟨n', k', hround, hshift, hk'⟩ := round_spec hpos 0 .positive
    have hexact : Holds .exact 0 := rfl
    rw [zpow_zero, mul_one, ← hvalue] at hshift
    rw [hround]
    refine roundWithAccuracy_eq h hexact ?_ hk' .positive
    rw [add_zero, hshift]
    exact roundsTo_self
  rw [Float.Model.ofNat, hround, unpack_pack_finite h]

/-- The powers of ten in the table are those that are exact. -/
private theorem powersOfTen_eq : ∀ (k : ℕ) (hk : k < Float.exactlyRepresentablePowersOfTen.size),
    Float.exactlyRepresentablePowersOfTen[k] = .ofModel (.ofNat (10 ^ k)) := by
  decide +kernel

/-- The powers of ten up to `10^22` are exact. -/
private theorem unpack_powerOfTen {k : ℕ} (hk : k ≤ 22) : ∃ m e, ∃ h : IsCanonical m e,
    (m * 2 ^ e : ℚ) = 10 ^ k ∧
      (Float.Model.ofNat (10 ^ k)).unpack = .finite .positive m e h.pos := by
  have hlt : 5 ^ k < 2 ^ 53 := lt_of_le_of_lt (Nat.pow_le_pow_right (by norm_num) hk) (by norm_num)
  -- the power of five alone must fit into the significand
  have hten : 5 ^ k * 2 ^ k = 10 ^ k := by rw [← Nat.mul_pow]
  obtain ⟨m, e, h, -, hvalue⟩ := exists_canonical (by positivity) hlt (by omega : k ≤ 900)
  rw [hten] at hvalue
  exact ⟨m, e, h, by exact_mod_cast hvalue, unpack_ofNat h hvalue⟩

end PointScope.Binary64

namespace PointScope.Decimal

open Binary64 Float.Model Float.Model.UnpackedFloat

/-! ### Reading a decimal -/

/-- The number that a decimal stands for. -/
def value (d : Decimal) : ℚ := d.digits * 10 ^ d.exponent

/-- The two ways in which a decimal is read: by a single operation on the digits and a power of ten,
both exact, or by way of whole numbers of any length. -/
private theorem toFloat_cases (d : Decimal) :
    (d.digits < 2 ^ 53 ∧ ∃ m e, ∃ h : IsCanonical m e, (m * 2 ^ e : ℚ) = 10 ^ d.exponent.natAbs ∧
      d.toFloat = .ofModel (.pack ((if d.exponent < 0 then UnpackedFloat.div else UnpackedFloat.mul)
        Format.binary64 (Float.Model.ofNat d.digits).unpack (.finite .positive m e h.pos)))) ∨
    d.toFloat =
      .ofModel (.pack (UnpackedFloat.ofScientific Format.binary64 d.digits d.exponent)) := by
  unfold toFloat Float.ofScientific
  split
  · -- the fast path: both parts are exact doubles
    left
    rename_i hfast
    obtain ⟨m, e, h, hvalue, hten⟩ := unpack_powerOfTen hfast.2
    refine ⟨hfast.1, m, e, h, hvalue, ?_⟩
    have hword : d.digits.toUInt64.toNat = d.digits :=
      UInt64.toNat_ofNat_of_lt (lt_trans hfast.1 (by norm_num))
    have hdigits : d.digits.toUInt64.toFloat = .ofModel (.ofNat d.digits) := by
      change Float.ofModel (.ofNat d.digits.toUInt64.toNat) = _
      rw [hword]
    dsimp only
    rw [powersOfTen_eq, hdigits, ← hten]
    by_cases hsign : d.exponent < 0
    · rw [if_pos (decide_eq_true hsign), if_pos hsign]
      rfl
    · rw [if_neg (by simpa using hsign), if_neg hsign]
      rfl
  · -- the exponent is put together again from its sign and its size
    right
    have hexponent : (if decide (d.exponent < 0) = true then Int.negOfNat d.exponent.natAbs
        else Int.ofNat d.exponent.natAbs) = d.exponent := by
      simp only [decide_eq_true_eq, Int.negOfNat_eq, Int.ofNat_eq_natCast]
      split <;> omega
    dsimp only
    rw [hexponent]
    rfl

section Bounds

variable {m : ℕ} {e : ℤ} (h : IsCanonical m e) {d : Decimal} (hx : RoundsTo d.value m e)

include h hx

/-- What rounds to a number other than zero is at least half of the least one. -/
private theorem value_ge : (2 : ℚ) ^ (-1075 : ℤ) ≤ d.value := by
  have hpos := two_zpow_pos (-1074)
  have hm : (1 : ℚ) ≤ m := by exact_mod_cast h.pos
  have hgap : (Shortest.gapBelow m e : ℚ) / 4 ≤ 1 / 2 := by
    rcases gapBelow_cases m e with ⟨-, -, hgap⟩ | ⟨-, hgap⟩ <;> rw [hgap] <;> norm_num
  have hunit : (2 : ℚ) ^ (-1074 : ℤ) ≤ 2 ^ e := zpow_le_zpow_right₀ (by norm_num) h.exponent_ge
  calc (2 : ℚ) ^ (-1075 : ℤ) = 1 / 2 * 2 ^ (-1074 : ℤ) := by
        rw [show (-1075 : ℤ) = -1 + -1074 by norm_num, zpow_add₀ (by norm_num)]
        norm_num
    _ ≤ 1 / 2 * 2 ^ e := mul_le_mul_of_nonneg_left hunit (by norm_num)
    _ ≤ (m - Shortest.gapBelow m e / 4 : ℚ) * 2 ^ e :=
        mul_le_mul_of_nonneg_right (by linarith) (two_zpow_pos e).le
    _ ≤ d.value := hx.low

private theorem digits_pos : 0 < d.digits := by
  refine Nat.pos_of_ne_zero fun hzero => ?_
  have hge := value_ge h hx
  rw [value, hzero, Nat.cast_zero, zero_mul] at hge
  exact absurd hge (not_le.mpr (two_zpow_pos _))

/-- No exponent is too large. -/
theorem exponent_le : d.exponent ≤ 2048 := by
  by_contra hgt
  have hdigits : (1 : ℚ) ≤ d.digits := by exact_mod_cast digits_pos h hx
  have hlt : d.value < 2 ^ (2048 : ℤ) :=
    lt_of_lt_of_le (hx.lt h) (zpow_le_zpow_right₀ (by norm_num) (by have := h.exponent_le; omega))
  have hten : (2 : ℚ) ^ (2048 : ℤ) ≤ 10 ^ d.exponent := by
    calc (2 : ℚ) ^ (2048 : ℤ) ≤ 10 ^ (2048 : ℤ) :=
          zpow_le_zpow_left₀ (by norm_num) (by norm_num) (by norm_num)
      _ ≤ 10 ^ d.exponent := zpow_le_zpow_right₀ (by norm_num) (by omega)
  have hvalue : (10 : ℚ) ^ d.exponent ≤ d.value :=
    le_mul_of_one_le_left (zpow_pos (by norm_num) _).le hdigits
  linarith

/-- No exponent is too small. -/
theorem exponent_ge : -(2048 + (d.digits.log2 : ℤ)) ≤ d.exponent := by
  by_contra hlt
  have hdigits : (d.digits : ℚ) < 2 ^ (d.digits.log2 + 1) := by exact_mod_cast Nat.lt_log2_self
  generalize d.digits.log2 = l at hlt hdigits
  -- a power of ten this small is below every double, and the digits cannot make up for it
  have hten : (10 : ℚ) ^ d.exponent ≤ 2 ^ (-(2049 + l) : ℤ) := by
    calc (10 : ℚ) ^ d.exponent ≤ 10 ^ (-(2049 + l) : ℤ) :=
          zpow_le_zpow_right₀ (by norm_num) (by omega)
      _ = (10 ^ (2049 + l))⁻¹ := by rw [zpow_neg]; norm_cast
      _ ≤ (2 ^ (2049 + l))⁻¹ :=
          inv_anti₀ (by positivity) (pow_le_pow_left₀ (by norm_num) (by norm_num) _)
      _ = 2 ^ (-(2049 + l) : ℤ) := by rw [zpow_neg]; norm_cast
  have hvalue : d.value < 2 ^ (-2048 : ℤ) := by
    calc d.value < 2 ^ (l + 1) * 10 ^ d.exponent :=
          mul_lt_mul_of_pos_right hdigits (zpow_pos (by norm_num) _)
      _ ≤ 2 ^ (l + 1) * 2 ^ (-(2049 + l) : ℤ) := mul_le_mul_of_nonneg_left hten (by positivity)
      _ = 2 ^ (-2048 : ℤ) := by
          rw [← two_zpow_add]
          congr 1
          push_cast
          ring
  have hge := value_ge h hx
  have hleast : (2 : ℚ) ^ (-2048 : ℤ) ≤ 2 ^ (-1075 : ℤ) :=
    zpow_le_zpow_right₀ (by norm_num) (by norm_num)
  linarith

/-- The way by whole numbers of any length reads a decimal as the number in whose interval it
lies. -/
private theorem ofScientific_eq :
    UnpackedFloat.ofScientific Format.binary64 d.digits d.exponent =
      .finite .positive m e h.pos := by
  have hpos := digits_pos h hx
  have hle := exponent_le h hx
  have hge := exponent_ge h hx
  unfold UnpackedFloat.ofScientific
  -- the bounds on the exponent rule out both early answers
  have hlarge : ¬d.exponent > 2 ^ Format.binary64.exponentBits := by
    change ¬d.exponent > 2048
    omega
  have hsmall : ¬d.exponent < -(2 ^ Format.binary64.exponentBits + (d.digits.log2 : ℤ)) := by
    change ¬d.exponent < -(2048 + (d.digits.log2 : ℤ))
    omega
  rw [dif_neg hpos.ne', if_neg hlarge, if_neg hsmall]
  split
  · -- a product: the digits are shifted first, so that the significand is full
    rename_i hsign
    obtain ⟨k, hk⟩ := Int.eq_ofNat_of_zero_le hsign
    have hbits : Format.binary64.mantissaBits = 53 := rfl
    have hvalue : ((d.digits <<< Format.binary64.mantissaBits : ℕ) *
        2 ^ (-(Format.binary64.mantissaBits : ℤ)) *
          ((10 ^ d.exponent.toNat : ℕ) * 2 ^ (0 : ℤ)) : ℚ) = d.value := by
      rw [hbits, value, hk, Nat.shiftLeft_eq, Int.toNat_natCast, zpow_natCast, zpow_neg]
      push_cast
      field_simp
    refine mul_eq h _ _ (hvalue.symm ▸ hx) ?_
    rw [hbits, Nat.shiftLeft_eq]
    calc 2 ^ 52 ≤ 1 * 2 ^ 53 * 1 := by norm_num
      _ ≤ d.digits * 2 ^ 53 * 10 ^ d.exponent.toNat :=
          Nat.mul_le_mul (Nat.mul_le_mul_right _ hpos) (Nat.pow_pos (by norm_num))
  · -- a quotient of the digits and a power of ten
    rename_i hsign
    obtain ⟨k, hk⟩ := Int.eq_ofNat_of_zero_le (by omega : 0 ≤ -d.exponent)
    have hvalue : (d.digits * 2 ^ (0 : ℤ) / ((10 ^ (-d.exponent).toNat : ℕ) * 2 ^ (0 : ℤ)) : ℚ) =
        d.value := by
      rw [value, ← neg_neg d.exponent, neg_neg (-d.exponent), hk, Int.toNat_natCast, zpow_neg,
        zpow_natCast]
      push_cast
      field_simp
    exact div_eq h _ _ (hvalue.symm ▸ hx)

/-- **A decimal is read as the number in whose interval it lies.** -/
theorem toFloat_eq : d.toFloat = .ofModel (.pack (.finite .positive m e h.pos)) := by
  rcases d.toFloat_cases with ⟨hlt, m₂, e₂, h₂, hvalue₂, hfloat⟩ | hfloat
  · -- both numbers are exact, so only the last operation rounds
    obtain ⟨m₁, e₁, h₁, hfull, hvalue₁⟩ :=
      exists_canonical (digits_pos h hx) hlt (by omega : 0 ≤ 900)
    rw [pow_zero, mul_one] at hvalue₁
    rw [hfloat, unpack_ofNat h₁ hvalue₁]
    by_cases hsign : d.exponent < 0
    · have hexponent : d.exponent = -(d.exponent.natAbs : ℤ) := by omega
      have hvalue : (m₁ * 2 ^ e₁ / (m₂ * 2 ^ e₂) : ℚ) = d.value := by
        rw [hvalue₁, hvalue₂, value, hexponent, zpow_neg, zpow_natCast, Int.natAbs_neg,
          Int.natAbs_natCast, div_eq_mul_inv]
      rw [if_pos hsign, div_eq h h₁.pos h₂.pos (hvalue.symm ▸ hx)]
    · have hexponent : d.exponent = (d.exponent.natAbs : ℤ) := by omega
      have hvalue : (m₁ * 2 ^ e₁ * (m₂ * 2 ^ e₂) : ℚ) = d.value := by
        rw [hvalue₁, hvalue₂, value, hexponent, zpow_natCast, Int.natAbs_natCast]
      rw [if_neg hsign, mul_eq h h₁.pos h₂.pos (hvalue.symm ▸ hx)
        (hfull.trans (Nat.le_mul_of_pos_right m₁ h₂.pos))]
  · rw [hfloat, ofScientific_eq h hx]

end Bounds

/-! ### Signs -/

private theorem isUnsigned_roundWithAccuracy (n : ℕ) (k : ℤ) (acc : Accuracy) :
    IsUnsigned (roundWithAccuracy Format.binary64 .positive n k acc) := by
  unfold roundWithAccuracy
  dsimp only
  split <;> rfl

private theorem isUnsigned_ofNat (n : ℕ) : IsUnsigned (Float.Model.ofNat n).unpack := by
  refine isUnsigned_unpack_pack ?_
  unfold UnpackedFloat.ofNat UnpackedFloat.ofInt UnpackedFloat.normalize
  split
  · rename_i hlt
    exact absurd (compare_lt_iff_lt.mp hlt) (by omega)
  · rfl
  · exact isUnsigned_roundWithAccuracy _ _ _

private theorem isUnsigned_mul {u : UnpackedFloat} (hu : IsUnsigned u) (m : ℕ) (e : ℤ)
    (hm : 0 < m) :
    IsUnsigned (mul Format.binary64 u (.finite .positive m e hm)) := by
  cases u with
  | notANumber => exact hu.elim
  | infinity s => obtain rfl := hu; rfl
  | zero s => obtain rfl := hu; rfl
  | finite s n k hn => obtain rfl := hu; exact isUnsigned_roundWithAccuracy _ _ _

private theorem isUnsigned_div {u : UnpackedFloat} (hu : IsUnsigned u) (m : ℕ) (e : ℤ)
    (hm : 0 < m) :
    IsUnsigned (div Format.binary64 u (.finite .positive m e hm)) := by
  cases u with
  | notANumber => exact hu.elim
  | infinity s => obtain rfl := hu; rfl
  | zero s => obtain rfl := hu; rfl
  | finite s n k hn => obtain rfl := hu; exact isUnsigned_roundWithAccuracy _ _ _

/-- What is read from digits has no sign. -/
private theorem isUnsigned_ofScientific (n : ℕ) (k : ℤ) :
    IsUnsigned (UnpackedFloat.ofScientific Format.binary64 n k) := by
  unfold UnpackedFloat.ofScientific
  split
  · rfl
  split
  · rfl
  split
  · rfl
  split <;> exact isUnsigned_roundWithAccuracy _ _ _

/-- **No decimal is read as a negative number** or as something that is not a number. -/
theorem isUnsigned_toFloat (d : Decimal) : IsUnsigned d.toFloat.toModel.unpack := by
  rcases d.toFloat_cases with ⟨-, m, e, h, -, hfloat⟩ | hfloat
  · rw [hfloat]
    refine isUnsigned_unpack_pack ?_
    split
    · exact isUnsigned_div (isUnsigned_ofNat _) m e h.pos
    · exact isUnsigned_mul (isUnsigned_ofNat _) m e h.pos
  · rw [hfloat]
    exact isUnsigned_unpack_pack (isUnsigned_ofScientific _ _)

end PointScope.Decimal

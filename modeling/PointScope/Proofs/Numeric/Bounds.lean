import PointScope.Proofs.Numeric.Whole

/-!
# Bounds that rounding keeps

A value that is at most some number is not rounded above the number (`roundWithAccuracy_atMost`).
So a sum, a quotient or a product is at most what it is for the bounds of its operands, if that is
a number itself: `AtMost` carries such a bound through the operations (`atMost_add`, `atMost_div`,
`atMost_mul`), and a number that is at most a whole one is nearest to a count that is not greater
(`toNearestCount_le`).
-/

namespace PointScope.Binary64

open Float.Model Float.Model.UnpackedFloat

private theorem value_pos {m : ℕ} (hm : 0 < m) (e : ℤ) : (0 : ℚ) < m * 2 ^ e :=
  mul_pos (by exact_mod_cast hm) (two_zpow_pos e)

/-- A number that is not above the bound. Only positive numbers can be. -/
def AtMost (b : ℚ) : UnpackedFloat → Prop
  | .infinity .positive => False
  | .finite .positive m e _ => m * 2 ^ e ≤ b
  | _ => True

/-! ### Rounding -/

/-- The whole part is at most one below the value. -/
private theorem Extends.mantissa_bounds {em : ExtendedMantissa} {y : ℚ} (h : Extends em y) :
    (em.mantissa : ℚ) ≤ y ∧ y < em.mantissa + 1 := by
  obtain ⟨rest, rfl, hrest, hlt, -⟩ := h
  have hhalf : 0 ≤ half em.roundBit ∧ half em.roundBit ≤ 1 / 2 := by
    cases em.roundBit <;> norm_num [half]
  constructor <;> linarith

private theorem mantissa_le_roundedMantissa (em : ExtendedMantissa) :
    em.mantissa ≤ em.roundedMantissa := by
  obtain ⟨k, roundBit, stickyBit⟩ := em
  cases roundBit <;> cases stickyBit
  · exact le_rfl
  · exact le_rfl
  · exact Nat.le_add_right k _
  · exact Nat.le_succ k

/-- A significand is not rounded above a whole number that the value is not above. -/
theorem Extends.roundedMantissa_le {em : ExtendedMantissa} {y : ℚ} (h : Extends em y) {b : ℕ}
    (hy : y ≤ b) : em.roundedMantissa ≤ b := by
  obtain ⟨rest, hvalue, hrest, -, -⟩ := h
  obtain ⟨k, roundBit, stickyBit⟩ := em
  cases roundBit with
  | false =>
    have hround : (ExtendedMantissa.mk k false stickyBit).roundedMantissa = k := by
      cases stickyBit <;> rfl
    have hle : (k : ℚ) ≤ b := by
      simp only [half] at hvalue
      norm_num at hvalue
      linarith
    rw [hround]
    exact_mod_cast hle
  | true =>
    -- the bound is a whole number and at least half a unit above the whole part
    have hlt : (k : ℚ) < b := by
      simp only [half, if_true] at hvalue
      linarith
    have hlt : k < b := by exact_mod_cast hlt
    have hround : (ExtendedMantissa.mk k true stickyBit).roundedMantissa ≤ k + 1 := by
      cases stickyBit with
      | true => exact le_rfl
      | false =>
        change k + k % 2 ≤ k + 1
        omega
    omega

section Round

variable {m n : ℕ} {e k : ℤ} {acc : Accuracy} {f : ℚ}

/-- A value is at least the power of two that its highest digit stands for. -/
private theorem two_zpow_log2_le (hn : 0 < n) (hf : 0 ≤ f) (k : ℤ) :
    (2 : ℚ) ^ (k + n.log2) ≤ (n + f) * 2 ^ k := by
  have hlog : (2 : ℚ) ^ n.log2 ≤ n := by exact_mod_cast Nat.log2_self_le hn.ne'
  rw [two_zpow_add]
  exact mul_le_mul_of_nonneg_right (by linarith) (two_zpow_pos k).le

/-- A value is at most the power of two above that of its highest digit. -/
private theorem le_two_zpow_log2 (hf : f ≤ 1) (k : ℤ) :
    (n + f) * 2 ^ k ≤ (2 : ℚ) ^ (k + (n.log2 + 1 : ℕ)) := by
  have hn : n + 1 ≤ 2 ^ (n.log2 + 1) := Nat.lt_log2_self
  have hcast : (n + 1 : ℚ) ≤ 2 ^ (n.log2 + 1) := by exact_mod_cast hn
  rw [two_zpow_add]
  exact mul_le_mul_of_nonneg_right (by linarith) (two_zpow_pos k).le

/-- The exponent that rounding aims at is at most that of any bound. -/
private theorem targetExponent_le (h : IsCanonical m e) (hf : 0 ≤ f)
    (hx : (n + f) * 2 ^ k ≤ (m * 2 ^ e : ℚ))
    (hk : k ≤ Format.binary64.targetExponent (totalExponent n k)) :
    Format.binary64.targetExponent (totalExponent n k) ≤ e := by
  rw [targetExponent_eq] at hk ⊢
  have hge := h.exponent_ge
  rcases n.eq_zero_or_pos with rfl | hn
  · rw [Nat.log2_zero] at hk ⊢
    omega
  · -- the leading bit of the sum is at most that of the bound
    have hm : (m : ℚ) < 2 ^ 53 := by exact_mod_cast h.lt
    have hvalue : (2 : ℚ) ^ (k + n.log2) < 2 ^ (e + 53) := by
      calc (2 : ℚ) ^ (k + n.log2) ≤ (n + f) * 2 ^ k := two_zpow_log2_le hn hf k
        _ ≤ m * 2 ^ e := hx
        _ < 2 ^ 53 * 2 ^ e := mul_lt_mul_of_pos_right hm (two_zpow_pos e)
        _ = 2 ^ (e + 53) := (two_zpow_add e 53).symm
    have hexp := (zpow_lt_zpow_iff_right₀ (by norm_num)).mp hvalue
    omega

section Significand

variable (hacc : Holds acc f) {t : ℤ}
  (ht : Format.binary64.targetExponent (totalExponent n k) = t) (hk : k ≤ t)

include hacc ht hk

/-- The rounded significand is one of 53 bits, or carries into one bit more. -/
theorem roundedMantissa_le : (shiftToExponent n k acc t).1.roundedMantissa ≤ 2 ^ 53 := by
  have hextends := (shiftToExponent_extends hacc (m := n) hk).2
  rw [targetExponent_eq] at ht
  refine hextends.roundedMantissa_le ?_
  rw [div_le_iff₀ (two_zpow_pos t)]
  calc (n + f) * 2 ^ k ≤ 2 ^ (k + (n.log2 + 1 : ℕ)) := le_two_zpow_log2 hacc.bounds.2.le k
    _ ≤ 2 ^ (t + (53 : ℕ)) := zpow_le_zpow_right₀ (by norm_num) (by push_cast; omega)
    _ = (2 ^ 53 : ℕ) * 2 ^ t := by rw [two_zpow_add, Nat.cast_pow, Nat.cast_ofNat]

/-- The rounded significand is full unless the exponent is the least one. -/
private theorem roundedMantissa_full :
    2 ^ 52 ≤ (shiftToExponent n k acc t).1.roundedMantissa ∨ t = -1074 := by
  have hextends := (shiftToExponent_extends hacc (m := n) hk).2
  rw [targetExponent_eq] at ht
  by_cases hleast : t = -1074
  · exact .inr hleast
  -- above the least exponent the leading bit is kept, so the significand is full
  left
  have hn : 0 < n := by
    refine Nat.pos_of_ne_zero ?_
    rintro rfl
    rw [Nat.log2_zero] at ht
    omega
  have hvalue : (2 : ℚ) ^ 52 ≤ (n + f) * 2 ^ k / 2 ^ t := by
    rw [le_div_iff₀ (two_zpow_pos t)]
    calc (2 : ℚ) ^ 52 * 2 ^ t = 2 ^ (t + (52 : ℕ)) := (two_zpow_add t 52).symm
      _ ≤ 2 ^ (k + n.log2) := zpow_le_zpow_right₀ (by norm_num) (by push_cast; omega)
      _ ≤ (n + f) * 2 ^ k := two_zpow_log2_le hn hacc.bounds.1 k
  have hlt := lt_of_le_of_lt hvalue hextends.mantissa_bounds.2
  have hlt : 2 ^ 52 < (shiftToExponent n k acc t).1.mantissa + 1 := by exact_mod_cast hlt
  have hle := mantissa_le_roundedMantissa (shiftToExponent n k acc t).1
  omega

end Significand

/-- A rounded significand that is not above a number is zero or made canonical by the second
shift, which does not change the value. -/
private theorem shiftToTargetExponent_rounded (h : IsCanonical m e) {r : ℕ} {t : ℤ}
    (hcarry : r ≤ 2 ^ 53)
    (hfull : 2 ^ 52 ≤ r ∨ t = -1074) (hleast : -1074 ≤ t) {j : ℕ} (hj : e = t + j)
    (hle : r ≤ m * 2 ^ j) :
    (shiftToTargetExponent Format.binary64 r t .exact).1.mantissa = 0 ∨
      ∃ m' e', IsCanonical m' e' ∧ (m' * 2 ^ e' : ℚ) = r * 2 ^ t ∧
        (shiftToTargetExponent Format.binary64 r t .exact).1.mantissa = m' ∧
          (shiftToTargetExponent Format.binary64 r t .exact).2 = e' := by
  have hlast := h.exponent_le
  rcases hcarry.lt_or_eq with hlt | rfl
  · rcases r.eq_zero_or_pos with rfl | hpos
    · left
      obtain rfl : t = -1074 := hfull.resolve_left (by norm_num)
      rfl
    · right
      have hcanonical : IsCanonical r t := ⟨hpos, hlt, hleast, by omega, hfull⟩
      exact ⟨r, t, hcanonical, rfl, shiftToTargetExponent_canonical hcanonical⟩
  · right
    -- the carry makes the exponent greater, but not greater than that of the bound
    have hj : 0 < j := by
      refine Nat.pos_of_ne_zero ?_
      rintro rfl
      have hm := h.lt
      rw [pow_zero, mul_one] at hle
      omega
    have hshift := shiftToTargetExponent_carry (by omega : -1074 < t + 1)
    rw [add_sub_cancel_right] at hshift
    refine ⟨2 ^ 52, t + 1, ⟨by norm_num, by norm_num, by omega, by omega, .inl le_rfl⟩, ?_, hshift⟩
    have hunit : (2 : ℚ) ^ (t + 1) = 2 ^ 1 * 2 ^ t := two_zpow_add t 1
    rw [hunit]
    push_cast
    ring

/-- **A value is not rounded above a number that it is not above.** -/
theorem roundWithAccuracy_le (h : IsCanonical m e) (hacc : Holds acc f)
    (hx : ((n + f) * 2 ^ k : ℚ) ≤ m * 2 ^ e)
    (hk : k ≤ Format.binary64.targetExponent (totalExponent n k)) (s : Sign) :
    roundWithAccuracy Format.binary64 s n k acc = .zero s ∨
      ∃ m' e', ∃ h' : IsCanonical m' e',
        roundWithAccuracy Format.binary64 s n k acc = .finite s m' e' h'.pos ∧
          (m' * 2 ^ e' : ℚ) ≤ m * 2 ^ e := by
  have hte := targetExponent_le h hacc.bounds.1 hx hk
  generalize ht : Format.binary64.targetExponent (totalExponent n k) = t at hk hte
  obtain ⟨htarget, hextends⟩ := shiftToExponent_extends hacc (m := n) hk
  have hfirst : shiftToTargetExponent Format.binary64 n k acc = shiftToExponent n k acc t := by
    rw [shiftToTargetExponent, ht]
  have hleast : -1074 ≤ t := by
    rw [targetExponent_eq] at ht
    omega
  -- the bound is a whole number of units of the last place
  obtain ⟨j, hj⟩ : ∃ j : ℕ, e = t + j := ⟨(e - t).toNat, by omega⟩
  have hbound : (m * 2 ^ e : ℚ) = (m * 2 ^ j : ℕ) * 2 ^ t := by
    rw [hj, two_zpow_add]
    push_cast
    ring
  have hle : (shiftToExponent n k acc t).1.roundedMantissa ≤ m * 2 ^ j := by
    refine hextends.roundedMantissa_le ?_
    rwa [div_le_iff₀ (two_zpow_pos t), ← hbound]
  unfold roundWithAccuracy
  simp only [hfirst, htarget]
  rcases shiftToTargetExponent_rounded h (roundedMantissa_le hacc ht hk)
      (roundedMantissa_full hacc ht hk) hleast hj hle with hzero | ⟨m', e', h', hvalue, hm, he⟩
  · exact .inl (dif_pos hzero)
  · refine .inr ⟨m', e', h', ?_, ?_⟩
    · simp only [hm, he]
      exact dif_neg h'.pos.ne'
    · rw [hvalue, hbound]
      exact mul_le_mul_of_nonneg_right (by exact_mod_cast hle) (two_zpow_pos t).le

end Round

/-! ### Packing -/

/-- Packing keeps a bound, if the numbers that can be above it are canonical. -/
theorem atMost_unpack_pack {b : ℚ} {u : UnpackedFloat} (hu : AtMost b u)
    (hcanonical : ∀ m e hm, u = .finite .positive m e hm → IsCanonical m e) :
    AtMost b (Float.Model.pack u).unpack := by
  change AtMost b (UnpackedFloat.unpack Format.binary64 (UnpackedFloat.pack Format.binary64 u))
  -- whatever its fields are, a negative double is at most `b`
  have hnegative : ∀ (x : BitVec 11) (f : BitVec 52),
      AtMost b (UnpackedFloat.unpack Format.binary64
        (packComponents Format.binary64 .negative x f)) := by
    intro x f
    rw [unpack_packComponents]
    split
    · split <;> trivial
    · split
      · split <;> trivial
      · trivial
  match u with
  | .notANumber =>
    rw [UnpackedFloat.pack, packedNaN, unpack_packComponents, if_pos rfl, if_neg (by decide)]
    trivial
  | .infinity .negative => exact hnegative _ _
  | .infinity .positive => exact hu.elim
  | .zero .negative => exact hnegative _ _
  | .zero .positive =>
    rw [UnpackedFloat.pack, packedZero, unpack_packComponents, if_neg (by decide)]
    trivial
  | .finite .negative m e hm =>
    unfold UnpackedFloat.pack
    dsimp only
    split
    · exact hnegative _ _
    split <;> exact hnegative _ _
  | .finite .positive m e hm =>
    have h := hcanonical m e hm rfl
    change AtMost b (Float.Model.pack (.finite .positive m e h.pos)).unpack
    rw [unpack_pack_finite h]
    exact hu

/-- What is not a number above zero needs no bound. -/
theorem atMost_unpack_pack_of_ne {b : ℚ} {u : UnpackedFloat} (hu : AtMost b u)
    (hfinite : ∀ m e hm, u ≠ .finite .positive m e hm) : AtMost b (Float.Model.pack u).unpack :=
  atMost_unpack_pack hu fun m e hm h => absurd h (hfinite m e hm)

/-! ### Operations -/

section Operations

variable {m m₂ n : ℕ} {e e₂ k : ℤ} {a : ℚ} {acc : Accuracy} {f : ℚ} {u : UnpackedFloat}

/-- A negative number is rounded to one. -/
private theorem roundWithAccuracy_negative (n : ℕ) (k : ℤ) (acc : Accuracy) (b : ℚ) :
    AtMost b (Float.Model.pack (roundWithAccuracy Format.binary64 .negative n k acc)).unpack := by
  apply atMost_unpack_pack_of_ne
  · unfold roundWithAccuracy
    dsimp only
    split <;> trivial
  · intro m e hm h
    unfold roundWithAccuracy at h
    dsimp only at h
    split at h <;> cases h

/-- A value that is not above a number is not above it when it is rounded and packed. -/
theorem roundWithAccuracy_atMost (h : IsCanonical m e) (hacc : Holds acc f)
    (hx : ((n + f) * 2 ^ k : ℚ) ≤ m * 2 ^ e)
    (hk : k ≤ Format.binary64.targetExponent (totalExponent n k)) :
    AtMost (m * 2 ^ e)
      (Float.Model.pack (roundWithAccuracy Format.binary64 .positive n k acc)).unpack := by
  rcases roundWithAccuracy_le h hacc hx hk .positive with hzero | ⟨m', e', h', hfinite, hle⟩
  · rw [hzero]
    exact atMost_unpack_pack_of_ne trivial nofun
  · rw [hfinite, unpack_pack_finite h']
    exact hle

/-- A whole multiple of a power of two that is not above a number, rounded. -/
theorem normalize_atMost (h : IsCanonical m e) {i : ℤ} (hx : (i * 2 ^ k : ℚ) ≤ m * 2 ^ e) :
    AtMost (m * 2 ^ e)
      (Float.Model.pack (UnpackedFloat.normalize Format.binary64 i k .positive)).unpack := by
  unfold UnpackedFloat.normalize
  split
  · exact roundWithAccuracy_negative _ _ _ _
  · exact atMost_unpack_pack_of_ne trivial nofun
  · rename_i hcompare
    have hi : 0 < i := compare_gt_iff_gt.mp hcompare
    have hexact : Holds .exact 0 := rfl
    obtain ⟨n', k', hround, hvalue, hk'⟩ := round_spec (by omega : 0 < i.toNat) k .positive
    have hcast : (i.toNat : ℚ) = i := by exact_mod_cast Int.toNat_of_nonneg hi.le
    rw [hround]
    refine roundWithAccuracy_atMost h hexact ?_ hk'
    rwa [add_zero, hvalue, hcast]

section Bound

variable (hu : AtMost a u) (h₂ : IsCanonical m₂ e₂) (h : IsCanonical m e)

include hu h

/-- A sum is at most what it is for the bounds of its terms. -/
theorem atMost_add (ha : 0 ≤ a) (hle : a + m₂ * 2 ^ e₂ ≤ (m * 2 ^ e : ℚ)) :
    AtMost (m * 2 ^ e)
      (Float.Model.pack (add Format.binary64 u (.finite .positive m₂ e₂ h₂.pos))).unpack := by
  match u with
  | .notANumber => exact atMost_unpack_pack_of_ne trivial nofun
  | .infinity .negative => exact atMost_unpack_pack_of_ne trivial nofun
  | .zero s =>
    have hsum : AtMost (m * 2 ^ e) (.finite .positive m₂ e₂ h₂.pos) := by
      change (m₂ * 2 ^ e₂ : ℚ) ≤ m * 2 ^ e
      linarith
    refine atMost_unpack_pack hsum ?_
    rintro m e hm ⟨⟩
    exact h₂
  | .finite s m₁ e₁ hm₁ =>
    -- both significands are shifted to the lower exponent
    have hshift : ∀ (m : ℕ) (e : ℤ), min e₁ e₂ ≤ e →
        ((m <<< (e - min e₁ e₂).toNat : ℕ) * 2 ^ min e₁ e₂ : ℚ) = m * 2 ^ e := by
      intro m e hmin
      have hpower := two_zpow_add (min e₁ e₂) (e - min e₁ e₂).toNat
      rw [Int.toNat_of_nonneg (by omega), add_sub_cancel] at hpower
      rw [hpower, Nat.shiftLeft_eq]
      push_cast
      ring
    have hfirst := hshift m₁ e₁ (min_le_left _ _)
    have hsecond := hshift m₂ e₂ (min_le_right _ _)
    have hpos := value_pos hm₁ e₁
    have hsum : ∀ i : ℤ, (i * 2 ^ min e₁ e₂ : ℚ) ≤ a →
        (((i + (m₂ <<< (e₂ - min e₁ e₂).toNat : ℕ) : ℤ) : ℚ) * 2 ^ min e₁ e₂) ≤ m * 2 ^ e := by
      intro i hi
      rw [Int.cast_add, Int.cast_natCast, add_mul, hsecond]
      linarith
    refine normalize_atMost h (hsum _ ?_)
    cases s with
    | negative =>
      change ((-(m₁ <<< (e₁ - min e₁ e₂).toNat : ℕ) : ℤ) : ℚ) * 2 ^ min e₁ e₂ ≤ a
      rw [Int.cast_neg, Int.cast_natCast, neg_mul, hfirst]
      linarith
    | positive =>
      change (((m₁ <<< (e₁ - min e₁ e₂).toNat : ℕ) : ℤ) : ℚ) * 2 ^ min e₁ e₂ ≤ a
      rw [Int.cast_natCast, hfirst]
      exact hu

/-- A quotient is at most what it is for the bound of the dividend. -/
theorem atMost_div (hle : a / (m₂ * 2 ^ e₂) ≤ (m * 2 ^ e : ℚ)) :
    AtMost (m * 2 ^ e)
      (Float.Model.pack (div Format.binary64 u (.finite .positive m₂ e₂ h₂.pos))).unpack := by
  match u with
  | .notANumber => exact atMost_unpack_pack_of_ne trivial nofun
  | .infinity .negative => exact atMost_unpack_pack_of_ne trivial nofun
  | .zero .negative | .zero .positive => exact atMost_unpack_pack_of_ne trivial nofun
  | .finite .negative m₁ e₁ hm₁ => exact roundWithAccuracy_negative _ _ _ _
  | .finite .positive m₁ e₁ hm₁ =>
    obtain ⟨f, hf, hvalue, hk⟩ :=
      divCore_spec hm₁ h₂.pos (rfl : divCore _ m₁ e₁ m₂ e₂ = (_, _, _))
    refine roundWithAccuracy_atMost h hf ?_ hk
    rw [← hvalue]
    exact le_trans (div_le_div_of_nonneg_right hu (value_pos h₂.pos e₂).le) hle

/-- A product is at most what it is for the bound of the first factor. -/
theorem atMost_mul (hfull : 2 ^ 52 ≤ m₂) (hle : a * (m₂ * 2 ^ e₂) ≤ (m * 2 ^ e : ℚ)) :
    AtMost (m * 2 ^ e)
      (Float.Model.pack (mul Format.binary64 u (.finite .positive m₂ e₂ h₂.pos))).unpack := by
  match u with
  | .notANumber => exact atMost_unpack_pack_of_ne trivial nofun
  | .infinity .negative => exact atMost_unpack_pack_of_ne trivial nofun
  | .zero .negative | .zero .positive => exact atMost_unpack_pack_of_ne trivial nofun
  | .finite .negative m₁ e₁ hm₁ => exact roundWithAccuracy_negative _ _ _ _
  | .finite .positive m₁ e₁ hm₁ =>
    obtain ⟨hvalue, hk⟩ :=
      mul_spec (hfull.trans (Nat.le_mul_of_pos_left m₂ hm₁) : 2 ^ 52 ≤ m₁ * m₂)
    have hexact : Holds .exact 0 := rfl
    refine roundWithAccuracy_atMost h hexact ?_ hk
    rw [← hvalue]
    exact le_trans (mul_le_mul_of_nonneg_right hu (value_pos h₂.pos e₂).le) hle

end Bound

/-- Nothing is above zero after it has been multiplied with zero. -/
theorem atMost_mul_zero (u : UnpackedFloat) (b : ℚ) :
    AtMost b (Float.Model.pack (mul Format.binary64 u (.zero .positive))).unpack := by
  match u with
  | .notANumber => exact atMost_unpack_pack_of_ne trivial nofun
  | .infinity s => exact atMost_unpack_pack_of_ne trivial nofun
  | .zero .negative | .zero .positive => exact atMost_unpack_pack_of_ne trivial nofun
  | .finite .negative .. | .finite .positive .. => exact atMost_unpack_pack_of_ne trivial nofun

end Operations

/-! ### Comparisons and counts -/

/-- Of two numbers the one with the greater exponent is greater, of two with the same exponent the
one with the greater significand. -/
theorem value_le_of_isLE {m m₁ : ℕ} {e e₁ : ℤ} (h₁ : IsCanonical m₁ e₁) (h : IsCanonical m e)
    (hle : ((compare e₁ e).then (compare m₁ m)).isLE = true) : (m₁ * 2 ^ e₁ : ℚ) ≤ m * 2 ^ e := by
  rcases lt_trichotomy e₁ e with hlt | rfl | hgt
  · -- with a smaller exponent even the greatest significand stays below
    have hge := h₁.exponent_ge
    have hm₁ : (m₁ : ℚ) ≤ 2 ^ 53 := by exact_mod_cast h₁.lt.le
    have hm : (2 ^ 52 : ℚ) ≤ m := by exact_mod_cast h.full.resolve_right (by omega)
    calc (m₁ * 2 ^ e₁ : ℚ) ≤ 2 ^ 53 * 2 ^ e₁ :=
          mul_le_mul_of_nonneg_right hm₁ (two_zpow_pos e₁).le
      _ = 2 ^ (e₁ + (53 : ℕ)) := (two_zpow_add e₁ 53).symm
      _ ≤ 2 ^ (e + (52 : ℕ)) := zpow_le_zpow_right₀ (by norm_num) (by push_cast; omega)
      _ = 2 ^ 52 * 2 ^ e := two_zpow_add e 52
      _ ≤ m * 2 ^ e := mul_le_mul_of_nonneg_right hm (two_zpow_pos e).le
  · rw [compare_eq_iff_eq.mpr rfl] at hle
    have hm : m₁ ≤ m := Nat.isLE_compare.mp hle
    exact mul_le_mul_of_nonneg_right (by exact_mod_cast hm) (two_zpow_pos e₁).le
  · rw [compare_gt_iff_gt.mpr hgt] at hle
    cases hle

/-- A number is not above one that it is compared with. -/
theorem atMost_of_le {x y : Float} {m : ℕ} {e : ℤ} (h : IsCanonical m e)
    (hy : y.toModel.unpack = .finite .positive m e h.pos) (hx : x ≤ y) :
    AtMost (m * 2 ^ e) x.toModel.unpack := by
  have hle : UnpackedFloat.le x.toModel.unpack y.toModel.unpack = true := of_decide_eq_true hx
  rw [hy] at hle
  cases hunpack : x.toModel.unpack with
  | infinity s =>
    rw [hunpack] at hle
    cases s with
    | negative => trivial
    | positive => cases hle
  | finite s m₁ e₁ hm₁ =>
    rw [hunpack] at hle
    cases s with
    | negative => trivial
    | positive => exact value_le_of_isLE (isCanonical_of_unpack hunpack) h hle
  | _ => trivial

/-- Rounding to a whole number does not pass one. -/
private theorem nearestWhole_le {m n : ℕ} {e : ℤ} (h : (m * 2 ^ e : ℚ) ≤ n) :
    nearestWhole m e ≤ n := by
  unfold nearestWhole
  split
  · rename_i he
    obtain ⟨k, rfl⟩ := Int.eq_ofNat_of_zero_le he
    rw [Int.toNat_natCast, Nat.shiftLeft_eq]
    rw [zpow_natCast] at h
    exact_mod_cast h
  · rename_i he
    obtain ⟨k, rfl⟩ : ∃ k : ℕ, e = -(k + 1 : ℕ) := ⟨(-e).toNat - 1, by omega⟩
    have hm : m ≤ n * 2 ^ (k + 1) := by
      have hpos : (0 : ℚ) < 2 ^ (k + 1) := by positivity
      rw [zpow_neg, zpow_natCast, ← div_eq_mul_inv, div_le_iff₀ hpos] at h
      exact_mod_cast h
    rw [neg_neg, Int.toNat_natCast, Nat.add_sub_cancel, Nat.shiftRight_eq_div_pow,
      Nat.shiftLeft_eq, one_mul]
    -- half a unit more does not reach the next whole number
    have hhalf : m + 2 ^ k < (n + 1) * 2 ^ (k + 1) := by
      have hpow : 2 ^ (k + 1) = 2 * 2 ^ k := pow_succ' 2 k
      have hpos : 0 < 2 ^ k := Nat.two_pow_pos k
      rw [add_mul, one_mul]
      omega
    exact Nat.le_of_lt_succ (Nat.div_lt_of_lt_mul (by rwa [mul_comm]))

/-- **A number that is at most a whole one** is nearest to a count that is not greater. -/
theorem toNearestCount_le {x : Float} {n : ℕ} (h : AtMost n x.toModel.unpack) :
    toNearestCount x ≤ n := by
  unfold toNearestCount parts
  match hunpack : x.toModel.unpack with
  | .notANumber => exact Nat.zero_le n
  | .infinity .negative => exact Nat.zero_le n
  | .infinity .positive =>
    rw [hunpack] at h
    exact h.elim
  | .zero .negative => exact Nat.zero_le n
  | .zero .positive => exact (min_le_left _ _).trans (nearestWhole_le (by simp))
  | .finite .negative m e hm => exact Nat.zero_le n
  | .finite .positive m e hm =>
    rw [hunpack] at h
    exact (min_le_left _ _).trans (nearestWhole_le h)

end PointScope.Binary64

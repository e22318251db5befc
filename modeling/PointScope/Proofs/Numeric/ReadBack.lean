import PointScope.Numeric.Layout
import PointScope.Proofs.Numeric.Shortest
import PointScope.Proofs.Text.Letters

/-!
# Numbers as texts

The shortest digits of a number without a sign read back as the number (`readDouble?_shortest`),
and are a numeral (`NumberText.exists_shortest`). Every numeral, that is digits with at most one
point and at least one digit, reads as a number that is not negative (`readDouble?_numeral`); it
is infinite if the numeral is too large.
-/

namespace PointScope

namespace Binary64

/-- A finite number whose sign bit is clear. -/
def IsMagnitude (x : Float) : Prop := ∃ m e, parts x = .finite false m e

end Binary64

open Binary64

/-! ### Reading digits -/

namespace Decimal

private theorem valueOfDigits_eq (cs : List Char) :
    valueOfDigits cs = Nat.ofDigitChars 10 cs 0 := by
  rw [Nat.ofDigitChars_eq_foldl]
  rfl

private theorem splitPoint_digits {cs : List Char} (hcs : ∀ c ∈ cs, c.isDigit = true) :
    splitPoint cs = (cs, [], []) := by
  unfold splitPoint
  rw [List.dropWhile_eq_nil_iff.mpr hcs, List.takeWhile_eq_self_iff.mpr hcs]

private theorem splitPoint_append {cs : List Char} (hcs : ∀ c ∈ cs, c.isDigit = true)
    (ds : List Char) :
    splitPoint (cs ++ '.' :: ds) = (cs, ds.takeWhile Char.isDigit, ds.dropWhile Char.isDigit) := by
  have htake : (cs ++ '.' :: ds).takeWhile Char.isDigit = cs := by
    rw [List.takeWhile_append_of_pos hcs, List.takeWhile_cons_of_neg (by decide), List.append_nil]
  have hdrop : (cs ++ '.' :: ds).dropWhile Char.isDigit = '.' :: ds := by
    rw [List.dropWhile_append_of_pos hcs, List.dropWhile_cons_of_neg (by decide)]
  unfold splitPoint
  rw [htake, hdrop]
  rfl

/-- A numeral is split at its point. -/
private theorem splitPoint_point {cs ds : List Char} (hcs : ∀ c ∈ cs, c.isDigit = true)
    (hds : ∀ c ∈ ds, c.isDigit = true) : splitPoint (cs ++ '.' :: ds) = (cs, ds, []) := by
  rw [splitPoint_append hcs, List.takeWhile_eq_self_iff.mpr hds, List.dropWhile_eq_nil_iff.mpr hds]

/-- Digits without a point are read as a whole number. -/
private theorem read?_digits {cs : List Char} (hne : cs ≠ []) (hcs : ∀ c ∈ cs, c.isDigit = true) :
    read? cs = some ⟨valueOfDigits cs, 0⟩ := by
  unfold read?
  rw [splitPoint_digits hcs]
  simp [hne, readExponent?]

/-- Digits around a point are read as one number, in units of the last place. -/
private theorem read?_point {cs ds : List Char} (hne : cs ++ ds ≠ [])
    (hcs : ∀ c ∈ cs, c.isDigit = true)
    (hds : ∀ c ∈ ds, c.isDigit = true) :
    read? (cs ++ '.' :: ds) = some ⟨valueOfDigits (cs ++ ds), -ds.length⟩ := by
  have hsome : ¬(cs.isEmpty && ds.isEmpty) = true := by
    simpa [List.isEmpty_iff] using hne
  unfold read?
  rw [splitPoint_point hcs hds]
  dsimp only
  rw [if_neg hsome]
  simp [readExponent?]

end Decimal

/-- A text that starts with a digit or a point is neither signed nor a word. -/
theorem readDouble?_eq_read? {c : Char} (hc : c.isDigit = true ∨ c = '.') (cs : List Char) :
    readDouble? (String.ofList (c :: cs)) = (Decimal.read? (c :: cs)).map Decimal.toFloat := by
  have hcode : c.toNat = 46 ∨ (48 ≤ c.toNat ∧ c.toNat ≤ 57) := by
    rcases hc with hc | rfl
    · exact .inr (Char.isDigit_iff_toNat.mp hc)
    · exact .inl rfl
  have hsign : Decimal.splitSign (c :: cs) = (false, c :: cs) := by
    unfold Decimal.splitSign
    split
    · rename_i h
      obtain ⟨rfl, -⟩ := List.cons.inj h
      exact absurd hcode (by decide)
    · rename_i h
      obtain ⟨rfl, -⟩ := List.cons.inj h
      exact absurd hcode (by decide)
    · rfl
  have hletter : ∀ l : Char, l.isAlpha = true → c.toLower ≠ l := by
    rintro l hl rfl
    rw [Char.isAlpha_toLower_eq_isAlpha, Text.isAlpha_iff] at hl
    omega
  -- the words for numbers without digits start with `i` or `n`
  have hword : readUnbounded? (c :: cs) = none := by
    have hi := hletter 'i' (by decide)
    have hn := hletter 'n' (by decide)
    simp [readUnbounded?, hi, hn]
  unfold readDouble?
  rw [String.toList_ofList, hsign]
  dsimp only
  rw [hword]
  exact Option.map_id'

private theorem readDouble?_of_read? {c : Char} {cs : List Char} (hc : c.isDigit = true ∨ c = '.')
    {d : Decimal} (hd : Decimal.read? (c :: cs) = some d) :
    readDouble? (String.ofList (c :: cs)) = some d.toFloat := by
  rw [readDouble?_eq_read? hc, hd, Option.map_some]

/-! ### Numerals -/

/-- Digits with at most one point are digits alone, or digits before and behind the point. -/
private theorem numeral_cases {cs : List Char}
    (hpart : (cs.all fun c => c.isDigit || c == '.') = true) (hcount : cs.count '.' ≤ 1) :
    (∀ c ∈ cs, c.isDigit = true) ∨ ∃ as bs, cs = as ++ '.' :: bs ∧
      (∀ c ∈ as, c.isDigit = true) ∧ ∀ c ∈ bs, c.isDigit = true := by
  rw [List.all_eq_true] at hpart
  have hdigit : ∀ c ∈ cs, c ≠ '.' → c.isDigit = true := by
    intro c hc hne
    simpa [hne] using hpart c hc
  by_cases hpoint : '.' ∈ cs
  · -- the characters on both sides of the only point are digits
    right
    obtain ⟨as, bs, rfl⟩ := List.append_of_mem hpoint
    have hnone : as.count '.' = 0 ∧ bs.count '.' = 0 := by
      rw [List.count_append, List.count_cons_self] at hcount
      omega
    refine ⟨as, bs, rfl, fun c hc => hdigit c ?_ ?_, fun c hc => hdigit c ?_ ?_⟩
    · exact List.mem_append_left _ hc
    · rintro rfl
      exact List.count_eq_zero.mp hnone.1 hc
    · exact List.mem_append_right _ (List.mem_cons_of_mem _ hc)
    · rintro rfl
      exact List.count_eq_zero.mp hnone.2 hc
  · exact .inl fun c hc => hdigit c hc fun h => hpoint (h ▸ hc)

theorem Binary64.isUnsigned_zero : IsUnsigned (0 : Float).toModel.unpack := rfl

/-- A number that is not negative is a magnitude or infinite. -/
theorem isMagnitude_of_isUnsigned {x : Float} (h : IsUnsigned x.toModel.unpack)
    (hfinite : x.isInf = false) : IsMagnitude x := by
  unfold IsMagnitude parts
  have hinf : x.toModel.unpack.isInf = false := hfinite
  cases hunpack : x.toModel.unpack with
  | notANumber => rw [hunpack] at h; exact h.elim
  | infinity s => rw [hunpack] at hinf; cases hinf
  | zero s =>
    rw [hunpack] at h
    obtain rfl := h
    exact ⟨0, 0, rfl⟩
  | finite s m e hm =>
    rw [hunpack] at h
    obtain rfl := h
    exact ⟨m, e, rfl⟩

/-- A number that is not negative is a number, and its sign bit is clear. -/
theorem isNegative_of_isUnsigned {x : Float} (h : IsUnsigned x.toModel.unpack) :
    x.isNaN = false ∧ isNegative x = false := by
  have hnan : x.isNaN = x.toModel.unpack.isNaN := rfl
  unfold isNegative parts
  rw [hnan]
  cases hunpack : x.toModel.unpack with
  | notANumber => rw [hunpack] at h; exact h.elim
  | infinity s | zero s | finite s m e hm =>
    rw [hunpack] at h
    obtain rfl := h
    exact ⟨rfl, rfl⟩

/-- **A numeral reads as a number that is not negative.** -/
theorem readDouble?_numeral {cs : List Char} (hdigit : cs.any Char.isDigit = true)
    (hpart : (cs.all fun c => c.isDigit || c == '.') = true) (hcount : cs.count '.' ≤ 1) :
    ∃ x, readDouble? (String.ofList cs) = some x ∧ IsUnsigned x.toModel.unpack := by
  have hread : ∃ d, Decimal.read? cs = some d := by
    rcases numeral_cases hpart hcount with hcs | ⟨as, bs, rfl, has, hbs⟩
    · refine ⟨_, Decimal.read?_digits ?_ hcs⟩
      rintro rfl
      cases hdigit
    · refine ⟨_, Decimal.read?_point ?_ has hbs⟩
      rintro hnil
      obtain ⟨rfl, rfl⟩ := List.append_eq_nil_iff.mp hnil
      cases hdigit
  obtain ⟨d, hd⟩ := hread
  -- it starts with a digit or a point, so it is no word such as `inf`
  cases cs with
  | nil => cases hdigit
  | cons c cs =>
    have hc : c.isDigit = true ∨ c = '.' := by
      simpa using List.all_eq_true.mp hpart c List.mem_cons_self
    exact ⟨d.toFloat, readDouble?_of_read? hc hd, Decimal.isUnsigned_toFloat d⟩

/-- Digits with more than one point are no numeral: what stands behind the second point is no
exponent. -/
theorem Decimal.read?_eq_none {cs : List Char}
    (hpart : (cs.all fun c => c.isDigit || c == '.') = true) (hcount : 1 < cs.count '.') :
    Decimal.read? cs = none := by
  have hcs : ∀ c ∈ cs, c = '.' ∨ c.isDigit = true := by
    intro c hc
    simpa [or_comm] using List.all_eq_true.mp hpart c hc
  -- the first two points, and the digits before them
  obtain ⟨as, rest, rfl, has⟩ :=
    List.eq_append_cons_of_mem (List.count_pos_iff.mp (by omega : 0 < cs.count '.'))
  have hcount' : 0 < rest.count '.' := by
    rw [List.count_append, List.count_eq_zero.mpr has, List.count_cons_self] at hcount
    omega
  obtain ⟨bs, rest, rfl, hbs⟩ := List.eq_append_cons_of_mem (List.count_pos_iff.mp hcount')
  have hasdigit : ∀ c ∈ as, c.isDigit = true := fun c hc =>
    (hcs c (by simp [hc])).resolve_left fun h => has (h ▸ hc)
  have hbsdigit : ∀ c ∈ bs, c.isDigit = true := fun c hc =>
    (hcs c (by simp [hc])).resolve_left fun h => hbs (h ▸ hc)
  have hdrop : (bs ++ '.' :: rest).dropWhile Char.isDigit = '.' :: rest := by
    rw [List.dropWhile_append_of_pos hbsdigit, List.dropWhile_cons_of_neg (by decide)]
  have hexponent : Decimal.readExponent? ('.' :: rest) = none := rfl
  unfold Decimal.read?
  rw [Decimal.splitPoint_append hasdigit, hdrop]
  dsimp only
  rw [hexponent, Option.map_none, ite_self]

/-! ### Positional texts -/

namespace NumberText

/-- Zeros are digits. -/
theorem isDigit_of_mem_zeros {n : ℕ} {c : Char} (hc : c ∈ zeros n) : c.isDigit = true := by
  obtain rfl := List.eq_of_mem_replicate hc
  rfl

/-- A whole number is written in digits. -/
theorem isDigit_of_mem_digits {n : ℕ} {c : Char} (hc : c ∈ digits n) : c.isDigit = true :=
  Nat.isDigit_of_mem_toDigits (by decide) (by decide) hc

private theorem valueOfDigits_zeros_append (n : ℕ) (cs : List Char) :
    Decimal.valueOfDigits (zeros n ++ cs) = Decimal.valueOfDigits cs := by
  rw [Decimal.valueOfDigits_eq, Decimal.valueOfDigits_eq, zeros, Nat.ofDigitChars_append,
    Nat.ofDigitChars_replicate_zero, Nat.mul_zero]

private theorem valueOfDigits_append_zeros (cs : List Char) (n : ℕ) :
    Decimal.valueOfDigits (cs ++ zeros n) = Decimal.valueOfDigits cs * 10 ^ n := by
  rw [Decimal.valueOfDigits_eq, Decimal.valueOfDigits_eq, zeros, Nat.ofDigitChars_append,
    Nat.ofDigitChars_replicate_zero, Nat.mul_comm]

/-- The digits of a whole number are read as the number. -/
private theorem valueOfDigits_digits (n : ℕ) : Decimal.valueOfDigits (digits n) = n := by
  rw [Decimal.valueOfDigits_eq, digits, Nat.ofDigitChars_ten_toDigits]

/-- A point stands behind at least one digit, and as many digits as asked for follow it. -/
theorem withPoint_eq (ds : List Char) {places : ℕ} (hplaces : places ≠ 0) :
    ∃ whole fraction, withPoint ds places = whole ++ '.' :: fraction ∧ whole ≠ [] ∧
      fraction.length = places ∧
      whole ++ fraction = zeros (places + 1 - ds.length) ++ ds := by
  set padded := zeros (places + 1 - ds.length) ++ ds with hpadded
  have hlength : places < padded.length := by
    rw [hpadded, zeros, List.length_append, List.length_replicate]
    omega
  refine ⟨padded.take (padded.length - places), padded.drop (padded.length - places), ?_, ?_, ?_,
    List.take_append_drop _ _⟩
  · rw [withPoint, if_neg hplaces]
  · rw [← List.length_pos_iff, List.length_take]
    omega
  · rw [List.length_drop]
    omega

/-- A positional text is digits, or digits before and behind a point, and its value is that of the
decimal. -/
private theorem positional_cases (d : Decimal) :
    (positional d ≠ [] ∧ (∀ c ∈ positional d, c.isDigit = true) ∧
      (⟨Decimal.valueOfDigits (positional d), 0⟩ : Decimal).value = d.value) ∨
    ∃ whole fraction, positional d = whole ++ '.' :: fraction ∧ whole ≠ [] ∧
      (∀ c ∈ whole ++ fraction, c.isDigit = true) ∧
      (⟨Decimal.valueOfDigits (whole ++ fraction), -fraction.length⟩ : Decimal).value =
        d.value := by
  by_cases hsign : 0 ≤ d.exponent
  · left
    have htext : positional d = digits d.digits ++ zeros d.exponent.toNat := if_pos hsign
    refine ⟨?_, ?_, ?_⟩
    · rw [htext]
      exact List.append_ne_nil_of_left_ne_nil Nat.toDigits_ne_nil _
    · intro c hc
      rw [htext] at hc
      rcases List.mem_append.mp hc with hc | hc
      · exact isDigit_of_mem_digits hc
      · exact isDigit_of_mem_zeros hc
    · rw [htext, valueOfDigits_append_zeros, valueOfDigits_digits]
      have hpow : (10 : ℚ) ^ d.exponent = 10 ^ d.exponent.toNat := by
        rw [← zpow_natCast, Int.toNat_of_nonneg hsign]
      simp only [Decimal.value, zpow_zero, mul_one, hpow]
      push_cast
      rfl
  · right
    obtain ⟨whole, fraction, htext, hwhole, hlength, hdigits⟩ :=
      withPoint_eq (digits d.digits) (by omega : (-d.exponent).toNat ≠ 0)
    refine ⟨whole, fraction, ?_, hwhole, ?_, ?_⟩
    · rw [positional, if_neg hsign, htext]
    · intro c hc
      rw [hdigits] at hc
      rcases List.mem_append.mp hc with hc | hc
      · exact isDigit_of_mem_zeros hc
      · exact isDigit_of_mem_digits hc
    · have hexponent : -((-d.exponent).toNat : ℤ) = d.exponent := by omega
      rw [hdigits, hlength, hexponent, valueOfDigits_zeros_append, valueOfDigits_digits]

/-- A positional text reads as a decimal of the same value. -/
theorem read?_positional (d : Decimal) :
    ∃ d', Decimal.read? (positional d) = some d' ∧ d'.value = d.value := by
  rcases positional_cases d with ⟨hne, hdigit, hvalue⟩ | ⟨whole, fraction, htext, hwhole, hdigit,
    hvalue⟩
  · exact ⟨_, Decimal.read?_digits hne hdigit, hvalue⟩
  · refine ⟨_, ?_, hvalue⟩
    rw [htext]
    exact Decimal.read?_point (List.append_ne_nil_of_left_ne_nil hwhole _)
      (fun c hc => hdigit c (List.mem_append_left _ hc))
      (fun c hc => hdigit c (List.mem_append_right _ hc))

private theorem count_point_eq_zero {cs : List Char} (hcs : ∀ c ∈ cs, c.isDigit = true) :
    cs.count '.' = 0 :=
  List.count_eq_zero.mpr fun hc => absurd (hcs '.' hc) (by decide)

/-- A positional text is a numeral that starts with a digit. -/
theorem exists_positional (d : Decimal) : ∃ c cs, positional d = c :: cs ∧ c.isDigit = true ∧
    (cs.all fun c => c.isDigit || c == '.') = true ∧ (c :: cs).count '.' ≤ 1 := by
  rcases positional_cases d with ⟨hne, hdigit, -⟩ | ⟨whole, fraction, htext, hwhole, hdigit, -⟩
  · obtain ⟨c, cs, htext⟩ := List.exists_cons_of_ne_nil hne
    rw [htext] at hdigit
    refine ⟨c, cs, htext, hdigit c List.mem_cons_self, List.all_eq_true.mpr ?_, ?_⟩
    · intro b hb
      rw [hdigit b (List.mem_cons_of_mem _ hb), Bool.true_or]
    · rw [count_point_eq_zero hdigit]
      exact Nat.zero_le 1
  · obtain ⟨c, cs, rfl⟩ := List.exists_cons_of_ne_nil hwhole
    refine ⟨c, cs ++ '.' :: fraction, htext, hdigit c List.mem_cons_self,
      List.all_eq_true.mpr ?_, ?_⟩
    · intro b hb
      rcases List.mem_append.mp hb with hb | hb
      · rw [hdigit b (List.mem_append_left _ (List.mem_cons_of_mem _ hb)), Bool.true_or]
      rcases List.mem_cons.mp hb with rfl | hb
      · rfl
      · rw [hdigit b (List.mem_append_right _ hb), Bool.true_or]
    · have hnone := count_point_eq_zero hdigit
      rw [List.count_append] at hnone
      rw [← List.cons_append, List.count_append, List.count_cons_self]
      omega

end NumberText

/-! ### The shortest text -/

/-- A magnitude is zero without a sign, or a positive number. -/
private theorem unpack_cases {x : Float} (h : IsMagnitude x) :
    (x.toModel.unpack = .zero .positive ∧ NumberText.shortest x = "0") ∨
    ∃ m e, ∃ hm : 0 < m, x.toModel.unpack = .finite .positive m e hm ∧
      NumberText.shortest x = String.ofList (NumberText.positional (Shortest.decimal m e)) := by
  obtain ⟨m, e, hparts⟩ := h
  unfold NumberText.shortest
  rw [hparts]
  unfold parts at hparts
  cases hunpack : x.toModel.unpack with
  | notANumber => rw [hunpack] at hparts; cases hparts
  | infinity s => rw [hunpack] at hparts; cases hparts
  | zero s =>
    rw [hunpack] at hparts
    cases s with
    | negative => cases hparts
    | positive => cases hparts; exact .inl ⟨rfl, rfl⟩
  | finite s m' e' hm =>
    rw [hunpack] at hparts
    cases s with
    | negative => cases hparts
    | positive =>
      cases hparts
      refine .inr ⟨m, e, hm, rfl, ?_⟩
      dsimp only
      rw [if_neg hm.ne']
      rfl

/-- **The shortest text of a magnitude reads back** as the magnitude. -/
theorem readDouble?_shortest {x : Float} (h : IsMagnitude x) :
    readDouble? (NumberText.shortest x) = some x := by
  rcases unpack_cases h with ⟨hunpack, htext⟩ | ⟨m, e, hm, hunpack, htext⟩
  · have hzero : (⟨0, 0⟩ : Decimal).toFloat = .ofModel (.pack (.zero .positive)) := by
      decide +kernel
    rw [htext, ← pack_unpack x, hunpack, ← hzero]
    exact readDouble?_of_read? (.inl rfl) rfl
  · obtain ⟨c, cs, hcons, hc, -⟩ := NumberText.exists_positional (Shortest.decimal m e)
    obtain ⟨d, hread, hvalue⟩ := NumberText.read?_positional (Shortest.decimal m e)
    have hrounds : RoundsTo d.value m e := hvalue ▸ Shortest.roundsTo_decimal hm e
    rw [htext, hcons, readDouble?_of_read? (.inl hc) (hcons ▸ hread),
      Decimal.toFloat_eq (isCanonical_of_unpack hunpack) hrounds, ← hunpack, pack_unpack]

/-- The shortest text of a magnitude is a numeral that starts with a digit. -/
theorem NumberText.exists_shortest {x : Float} (h : IsMagnitude x) :
    ∃ c cs, (NumberText.shortest x).toList = c :: cs ∧ c.isDigit = true ∧
      (cs.all fun c => c.isDigit || c == '.') = true ∧ (c :: cs).count '.' ≤ 1 := by
  rcases unpack_cases h with ⟨-, htext⟩ | ⟨m, e, -, -, htext⟩
  · exact ⟨'0', [], by rw [htext]; rfl, rfl, rfl, by decide⟩
  · rw [htext, String.toList_ofList]
    exact exists_positional _

end PointScope

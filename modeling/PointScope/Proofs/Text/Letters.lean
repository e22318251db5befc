import Mathlib
import PointScope.Text.Basic

/-!
# Letters and white space

Which characters are letters and which are not white space in terms of their codes, and names in
small letters.
-/

namespace PointScope.Text

/-- The letters are `A` to `Z` and `a` to `z`. -/
theorem isAlpha_iff (c : Char) : c.isAlpha = true ↔
    (65 ≤ c.toNat ∧ c.toNat ≤ 90) ∨ (97 ≤ c.toNat ∧ c.toNat ≤ 122) := by
  simp only [Char.isAlpha, Char.isUpper, Char.isLower, Bool.or_eq_true, Bool.and_eq_true,
    decide_eq_true_eq, ge_iff_le, UInt32.le_iff_toNat_le]
  rfl

/-- What is no letter has no small form of its own. -/
theorem toLower_eq_self {c : Char} (h : c.isAlpha = false) : c.toLower = c := by
  rw [Char.isAlpha, Bool.or_eq_false_iff] at h
  exact Char.toLower_eq_of_not_isUpper (by rw [h.1]; exact Bool.false_ne_true)

/-- A character that is no letter is the small form of itself only. -/
theorem toLower_eq_iff {c d : Char} (hd : d.isAlpha = false) : c.toLower = d ↔ c = d := by
  constructor
  · rintro rfl
    exact (toLower_eq_self (c.isAlpha_toLower_eq_isAlpha.symm.trans hd)).symm
  · rintro rfl
    exact toLower_eq_self hd

/-- What is the same for all letters does not depend on their case. -/
theorem apply_toLower {α : Type} {f : Char → α} {a : α} (h : ∀ c, c.isAlpha = true → f c = a)
    (c : Char) : f c.toLower = f c := by
  cases halpha : c.isAlpha with
  | false => rw [toLower_eq_self halpha]
  | true => rw [h c halpha, h c.toLower (c.isAlpha_toLower_eq_isAlpha.trans halpha)]

/-- White space is neither a sign, a digit nor a letter. -/
theorem isWhiteSpace_eq_false {c : Char} (h : 33 ≤ c.toNat ∧ c.toNat ≤ 122) :
    isWhiteSpace c = false := by
  simp [isWhiteSpace, whiteSpaceRanges]
  omega

theorem toList_fold (s : String) : (fold s).toList = s.toList.map Char.toLower :=
  String.toList_map

/-- Texts are equal in small letters if their characters are. -/
theorem fold_eq_fold {s t : String} (h : s.toList.map Char.toLower = t.toList.map Char.toLower) :
    fold s = fold t := by
  rwa [← String.toList_inj, toList_fold, toList_fold]

/-- Names in small letters are kept as they are. -/
theorem fold_fold (s : String) : fold (fold s) = fold s := by
  rw [fold, fold, String.map_map]
  congr 1
  funext c
  exact c.toLower_toLower_eq_toLower

/-- A name in small letters has no capital letter. -/
theorem isUpper_eq_false {s : String} (h : fold s = s) : ∀ c ∈ s.toList, c.isUpper = false := by
  intro c hc
  rw [← h, toList_fold] at hc
  obtain ⟨d, -, rfl⟩ := List.mem_map.mp hc
  exact d.isUpper_toLower_eq_false

end PointScope.Text

import Mathlib
import PointScope.Numeric.Binary64

/-!
# Numbers and their parts

A finite number other than zero has exactly one canonical pair of a significand and an exponent
(`IsCanonical`): unpacking a number gives it (`isCanonical_of_unpack`), packing it gives the number
back (`pack_unpack`), and unpacking what a canonical pair is packed to gives the pair
(`unpack_pack_finite`).
-/

namespace PointScope.Binary64

open Float.Model Float.Model.UnpackedFloat

/-- The pairs of a significand and an exponent that numbers consist of: the significand fills its
53 bits unless the exponent is the least one. -/
structure IsCanonical (m : ℕ) (e : ℤ) : Prop where
  pos : 0 < m
  lt : m < 2 ^ 53
  exponent_ge : -1074 ≤ e
  exponent_le : e ≤ 971
  full : 2 ^ 52 ≤ m ∨ e = -1074

/-! ### Fields -/

section Fields

variable (s : Sign) (x : BitVec 11) (f : BitVec 52)

/-- What the fields of a word stand for. -/
theorem unpack_packComponents :
    UnpackedFloat.unpack Format.binary64 (packComponents Format.binary64 s x f) =
      if x = -1#11 then if f = 0#52 then .infinity s else .notANumber
      else if x = 0#11 then
        if h : f = 0#52 then .zero s
        else .finite s f.toNat (-1074) (Nat.pos_of_ne_zero (by simpa [← BitVec.toNat_inj] using h))
      else .finite s (2 ^ 52 + f.toNat) (x.toNat - 1075) (by omega) := by
  have hfull : (1#1 ++ f).toNat = 2 ^ 52 + f.toNat := by
    rw [BitVec.toNat_append, ← Nat.shiftLeft_add_eq_or_of_lt f.isLt]
    rfl
  unfold UnpackedFloat.unpack
  simp only [unpackExponent_packComponents, unpackMantissa_packComponents,
    unpackSign_packComponents, Sign.ofBitVec_toBitVec]
  split
  · rfl
  · split
    · rename_i hx
      subst hx
      rfl
    · simp only [hfull]
      rfl

end Fields

/-! ### Packing canonical pairs -/

section Canonical

variable {m : ℕ} {e : ℤ} (h : IsCanonical m e) (s : Sign)

include h

/-- A canonical pair is packed into the three fields. -/
theorem pack_finite (hm : 0 < m) :
    UnpackedFloat.pack Format.binary64 (.finite s m e hm) =
      packComponents Format.binary64 s
        (if m < 2 ^ 52 then 0#11 else BitVec.ofNat 11 (e + 1075).toNat) (BitVec.ofNat 52 m) := by
  have hge := h.exponent_ge
  have hle := h.exponent_le
  have hbias : (e + (Format.exponentBias Format.binary64 : ℤ) +
      (Format.mantissaBitsWithoutImplicit Format.binary64 : ℤ)).toNat = (e + 1075).toNat := by
    congr 1
    change e + 1023 + 52 = e + 1075
    omega
  have hfinite : ¬2 ^ Format.exponentBits Format.binary64 ≤ (e + 1075).toNat + 1 := by
    change ¬2048 ≤ _
    omega
  -- the leading bit is there exactly if the significand is full
  have hlog : m.log2 + 1 = Format.mantissaBits Format.binary64 ↔ ¬m < 2 ^ 52 := by
    change m.log2 + 1 = 53 ↔ _
    have hlt := (Nat.log2_lt hm.ne').mpr h.lt
    rw [not_lt, ← Nat.le_log2 hm.ne']
    omega
  unfold UnpackedFloat.pack
  dsimp only
  rw [hbias, if_neg hfinite]
  by_cases hfull : m < 2 ^ 52
  · rw [if_neg (hlog.not.mpr (not_not.mpr hfull)), if_pos hfull]
  · rw [if_pos (hlog.mpr hfull), if_neg hfull]

/-- **Unpacking a packed canonical pair** gives the pair. -/
theorem unpack_pack_finite :
    (Float.Model.pack (.finite s m e h.pos)).unpack = .finite s m e h.pos := by
  have hlt := h.lt
  have hpos := h.pos
  have hge := h.exponent_ge
  have hle := h.exponent_le
  change UnpackedFloat.unpack Format.binary64 (UnpackedFloat.pack Format.binary64 _) = _
  rw [pack_finite h, unpack_packComponents]
  -- the leading bit of a full significand is not stored
  by_cases hfull : m < 2 ^ 52
  · have hf : (BitVec.ofNat 52 m).toNat = m := by
      rw [BitVec.toNat_ofNat, Nat.mod_eq_of_lt hfull]
    have hne : BitVec.ofNat 52 m ≠ 0#52 := by
      rw [Ne, ← BitVec.toNat_inj, hf]
      exact hpos.ne'
    obtain rfl : e = -1074 := h.full.resolve_left (not_le.mpr hfull)
    simp only [if_pos hfull, hf, hne]
    rfl
  · have hx : (BitVec.ofNat 11 (e + 1075).toNat).toNat = (e + 1075).toNat := by
      rw [BitVec.toNat_ofNat]
      omega
    have hones : BitVec.ofNat 11 (e + 1075).toNat ≠ -1#11 := by
      rw [Ne, ← BitVec.toNat_inj, hx]
      change (e + 1075).toNat ≠ 2047
      omega
    have hzero : BitVec.ofNat 11 (e + 1075).toNat ≠ 0#11 := by
      rw [Ne, ← BitVec.toNat_inj, hx]
      change (e + 1075).toNat ≠ 0
      omega
    have hm : 2 ^ 52 + (BitVec.ofNat 52 m).toNat = m := by
      rw [BitVec.toNat_ofNat]
      omega
    have he : ((e + 1075).toNat : ℤ) - 1075 = e := by omega
    simp only [if_neg hfull, if_neg hones, if_neg hzero, hx, hm, he]

end Canonical

/-! ### Unpacking numbers -/

/-- What a word unpacks to is canonical. -/
theorem isCanonical_of_unpack {b : BitVec Format.binary64.numBits} {s : Sign} {m : ℕ} {e : ℤ}
    {hm : 0 < m} (h : UnpackedFloat.unpack Format.binary64 b = .finite s m e hm) :
    IsCanonical m e := by
  have hx : (unpackExponent b).toNat < 2 ^ 11 := (unpackExponent b).isLt
  have hf : (unpackMantissa b).toNat < 2 ^ 52 := (unpackMantissa b).isLt
  rw [← packComponents_unpackSign_unpackExponent_unpackMantissa b, unpack_packComponents] at h
  split at h
  · split at h <;> cases h
  rename_i hones
  split at h
  · split at h
    · cases h
    · cases h
      -- exponent zero: the significand need not be full
      exact ⟨hm, by omega, by omega, by omega, .inr rfl⟩
  · rename_i hzero
    cases h
    rw [← BitVec.toNat_inj] at hones hzero
    change ¬_ = 2047 at hones
    change ¬_ = 0 at hzero
    exact ⟨hm, by omega, by omega, by omega, .inl (by omega)⟩

/-- **Packing what a number unpacks to** gives the number. -/
theorem pack_unpack (x : Float) : Float.ofModel (.pack x.toModel.unpack) = x := by
  have hword : UnpackedFloat.pack Format.binary64 x.toModel.unpack = x.toModel.toBits.toBitVec :=
    pack_unpack_of_valid x.toModel.valid
  obtain ⟨⟨bits, hvalid⟩⟩ := x
  simp only [Float.Model.pack, hword, UInt64.ofBitVec_toBitVec]

/-! ### Numbers without a sign -/

/-- A number that is neither negative nor undefined; infinity is among them. -/
def IsUnsigned : UnpackedFloat → Prop
  | .notANumber => False
  | .infinity s | .zero s | .finite s _ _ _ => s = .positive

/-- Packing sets no sign. -/
theorem isUnsigned_unpack_pack {u : UnpackedFloat} (hu : IsUnsigned u) :
    IsUnsigned (Float.Model.pack u).unpack := by
  change IsUnsigned (UnpackedFloat.unpack Format.binary64 (UnpackedFloat.pack Format.binary64 u))
  -- only with all ones in the exponent could the fields mean no number
  have hfields : ∀ (x : BitVec 11) (f : BitVec 52), (x = -1#11 → f = 0#52) →
      IsUnsigned (UnpackedFloat.unpack Format.binary64
        (packComponents Format.binary64 .positive x f)) := by
    intro x f hxf
    rw [unpack_packComponents]
    split
    · rw [if_pos (hxf ‹_›)]
      rfl
    · split
      · split <;> rfl
      · rfl
  cases u with
  | notANumber => exact hu.elim
  | infinity s => obtain rfl := hu; exact hfields _ _ fun _ => rfl
  | zero s => obtain rfl := hu; exact hfields _ _ fun _ => rfl
  | finite s m e hm =>
    obtain rfl := hu
    unfold UnpackedFloat.pack
    dsimp only
    split
    · exact hfields _ _ fun _ => rfl
    split
    · -- the exponent of a finite double does not reach all ones
      rename_i hfinite _
      refine hfields _ _ fun hones => ?_
      rw [← BitVec.toNat_inj, BitVec.toNat_ofNat] at hones
      change _ % 2048 = 2047 at hones
      change ¬2048 ≤ _ at hfinite
      omega
    · exact hfields _ _ fun hones => absurd hones (by decide)

end PointScope.Binary64

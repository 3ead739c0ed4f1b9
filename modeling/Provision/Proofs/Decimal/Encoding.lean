import Mathlib.Algebra.Group.Nat.Defs
import Provision.Decimal

/-!
# Bit patterns of floating-point numbers

A floating-point number is a bit pattern that is valid in the `binary64`
format.  Packing what was unpacked from such a pattern gives the pattern back,
so a number is determined by its bits.  The bits of a finite number are the
encoding of its magnitude, below the sign.
-/

namespace Provision.Decimal

open Float.Model Float.Model.UnpackedFloat

theorem toBitVec_ofBitVec (b : BitVec 1) : (Sign.ofBitVec b).toBitVec = b := by
  revert b
  decide

theorem packComponents_of_unpacked (b : BitVec Format.binary64.numBits) :
    packComponents Format.binary64 (Sign.ofBitVec (unpackSign b)) (unpackExponent b)
      (unpackMantissa b) = b := by
  unfold packComponents
  rw [toBitVec_ofBitVec]
  apply BitVec.eq_of_getLsbD_eq
  intro i hi
  have hi64 : i < 64 := hi
  delta unpackSign unpackExponent unpackMantissa
  simp only [BitVec.getLsbD_append, BitVec.getLsbD_cast, BitVec.getLsbD_extractLsb]
  by_cases hlow : i < 52
  · simp [hlow]
  · by_cases hmid : i - 52 < 11
    · have hplace : 52 + (i - 52) = i := by omega
      simp [hlow, hmid, hplace]
    · have hlast : i = 63 := by omega
      subst hlast
      simp [-BitVec.getLsbD_eq_getElem]

theorem pack_subnormal (s : Sign) (m : BitVec 52) (h : 0 < m.toNat) :
    UnpackedFloat.pack Format.binary64 (.finite s m.toNat (-1074) h) =
      packComponents Format.binary64 s 0#11 m := by
  have hlog : m.toNat.log2 < 52 := (Nat.log2_lt (by omega)).2 m.isLt
  have hbias : ((-1074 : Int) + Format.binary64.exponentBias +
      Format.binary64.mantissaBitsWithoutImplicit).toNat = 1 := by decide
  have hbits : Format.binary64.mantissaBits = 53 := rfl
  unfold UnpackedFloat.pack
  dsimp only
  simp only [hbias, hbits]
  rw [if_neg (by decide), if_neg (by omega), BitVec.ofNat_toNat]
  rfl

theorem pack_normal (s : Sign) (e : BitVec 11) (m : BitVec 52)
    (hlast : e ≠ -1#11)
    (h : 0 < (1#1 ++ m).toNat) :
    UnpackedFloat.pack Format.binary64 (.finite s (1#1 ++ m).toNat (e.toNat - 1075) h) =
      packComponents Format.binary64 s e m := by
  have hm := m.isLt
  have he := e.isLt
  have hval : (1#1 ++ m).toNat = 2 ^ 52 + m.toNat := by
    rw [BitVec.toNat_append, ← Nat.shiftLeft_add_eq_or_of_lt hm]
    rfl
  have hlog : (1#1 ++ m).toNat.log2 = 52 :=
    (Nat.log2_eq_iff (by omega)).2 (by omega)
  have hne : e.toNat ≠ 2047 := by
    intro heq
    exact hlast (BitVec.eq_of_toNat_eq heq)
  have hbias : ((e.toNat : Int) - 1075 + Format.binary64.exponentBias +
      Format.binary64.mantissaBitsWithoutImplicit).toNat = e.toNat := by
    have hexp : (Format.binary64.exponentBias : Int) = 1023 := by decide
    have hman : (Format.binary64.mantissaBitsWithoutImplicit : Int) = 52 := rfl
    rw [hexp, hman]
    omega
  have hbits : Format.binary64.mantissaBits = 53 := rfl
  unfold UnpackedFloat.pack
  dsimp only
  simp only [hbias, hbits, hlog]
  rw [if_neg (by show ¬ 2 ^ 11 ≤ _; omega), if_pos trivial, BitVec.ofNat_toNat]
  congr 1
  apply BitVec.eq_of_toNat_eq
  rw [BitVec.toNat_ofNat, hval]
  omega

/-- Packing undoes unpacking on every valid bit pattern. -/
theorem pack_unpack (b : BitVec Format.binary64.numBits)
    (hvalid : Format.binary64.Valid b) :
    UnpackedFloat.pack Format.binary64 (UnpackedFloat.unpack Format.binary64 b) = b := by
  have hb := packComponents_of_unpacked b
  unfold UnpackedFloat.unpack
  dsimp only
  by_cases he : unpackExponent b = -1#_
  · rw [if_pos he]
    by_cases hm : unpackMantissa b = 0#_
    · rw [if_pos hm]
      rw [he, hm] at hb
      exact hb
    · rw [if_neg hm]
      exact (hvalid.eq_packedNaN he hm).symm
  · rw [if_neg he]
    by_cases hzero : unpackExponent b = 0#_
    · rw [if_pos hzero]
      by_cases hm : unpackMantissa b = 0#_
      · rw [dif_pos hm]
        rw [hzero, hm] at hb
        exact hb
      · rw [dif_neg hm]
        rw [hzero] at hb ⊢
        exact (pack_subnormal _ _ _).trans hb
    · rw [if_neg hzero]
      exact (pack_normal _ _ _ he _).trans hb

theorem float_ext {bits bits' : UInt64}
    {hbits : Format.binary64.Valid bits.toBitVec} {hbits' : Format.binary64.Valid bits'.toBitVec}
    (h : bits.toBitVec = bits'.toBitVec) :
    (⟨⟨bits, hbits⟩⟩ : Float) = ⟨⟨bits', hbits'⟩⟩ := by
  obtain rfl := UInt64.toBitVec_inj.1 h
  rfl

theorem ofBits_toBits (x : Float) : Float.ofBits x.toBits = x := by
  obtain ⟨⟨bits, valid⟩⟩ := x
  exact float_ext (pack_unpack bits.toBitVec valid)

/-! ## Magnitudes -/

/-- A significand and exponent as finite numbers have them: 53 bits, and fewer only at the least
exponent; the spacing below is narrow exactly at the lower end of a binade. -/
structure Magnitude.Canonical (b : Magnitude) : Prop where
  significand_lt : b.significand < 2 ^ 53
  exponent_ge : -1074 ≤ b.exponent
  exponent_le : b.exponent ≤ 971
  normal : 2 ^ 52 ≤ b.significand ∨ b.exponent = -1074
  narrow_iff : b.narrowBelow = true ↔ b.significand = 2 ^ 52 ∧ b.exponent ≠ -1074

theorem exponentField_lt (x : Float) : exponentField x < 2 ^ 11 :=
  Nat.mod_lt _ (by decide)

theorem fractionBits_lt (x : Float) : fractionBits x < 2 ^ 52 :=
  Nat.mod_lt _ (by decide)

theorem magnitude_canonical {x : Float} (hx : isFinite x = true) : (magnitude x).Canonical := by
  have hfield := exponentField_lt x
  have hfraction := fractionBits_lt x
  have hfinite : exponentField x ≠ 2047 := by
    simpa [isFinite] using hx
  unfold magnitude
  dsimp only
  split
  · rename_i hzero
    constructor <;> simp
    omega
  · rename_i hpos
    constructor <;> simp <;> omega

/-- The encoding of the magnitude is what is left of the bits when the sign is taken off. -/
theorem encode_magnitude (x : Float) :
    encode (magnitude x).significand (magnitude x).exponent =
      exponentField x * 2 ^ 52 + fractionBits x := by
  have hfield := exponentField_lt x
  unfold encode magnitude
  dsimp only
  split
  · rename_i hzero
    simp [hzero]
  · rename_i hpos
    simp only [Int.ofNat_eq_natCast, Nat.pow_eq]
    omega

theorem toNat_toBits (x : Float) :
    x.toBits.toNat =
      (if isNegative x then 2 ^ 63 else 0) +
        encode (magnitude x).significand (magnitude x).exponent := by
  have hlt : x.toBits.toNat < 2 ^ 64 := x.toBits.toNat_lt
  rw [encode_magnitude]
  simp only [isNegative, exponentField, fractionBits, Nat.pow_eq]
  by_cases hsign : 2 ^ 63 ≤ x.toBits.toNat
  · simp only [hsign, decide_true, if_true]
    omega
  · simp only [hsign, decide_false, Bool.false_eq_true, if_false]
    omega

theorem encode_magnitude_lt {x : Float} (hx : isFinite x = true) :
    encode (magnitude x).significand (magnitude x).exponent < infinityBits := by
  have hfield := exponentField_lt x
  have hfraction := fractionBits_lt x
  have hfinite : exponentField x ≠ 2047 := by
    simpa [isFinite] using hx
  rw [encode_magnitude]
  simp only [infinityBits, Nat.pow_eq]
  omega

end Provision.Decimal

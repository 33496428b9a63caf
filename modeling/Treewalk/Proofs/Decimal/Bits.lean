import Mathlib.Data.Int.Log
import Treewalk.Decimal.Rounding

/-!
# Doubles and their bit patterns

**A double is determined by its bit pattern.**  A bit pattern is a sign, an exponent and a
significand side by side.  Reading a double from a pattern takes the three apart and packs them
again, which only changes a pattern that is no number, and of those a double has just one.
-/

namespace Treewalk.Decimal

open Float.Model Float.Model.UnpackedFloat

theorem toBitVec_ofBitVec (sign : BitVec 1) : (Sign.ofBitVec sign).toBitVec = sign := by
  rcases sign.eq_zero_or_eq_one with rfl | rfl <;> rfl

/-- A bit pattern is put together from its sign, exponent and significand. -/
theorem packComponents_eq {format : Format} (b : BitVec format.numBits) :
    packComponents format (.ofBitVec (unpackSign b)) (unpackExponent b) (unpackMantissa b) = b := by
  unfold packComponents
  rw [toBitVec_ofBitVec]
  unfold unpackSign unpackExponent unpackMantissa BitVec.extractLsb
  ext i hi
  simp only [BitVec.getElem_append, BitVec.getElem_cast, BitVec.getElem_extractLsb']
  rw [← BitVec.getLsbD_eq_getElem hi]
  split
  · rw [Nat.zero_add]
  · split <;> (congr 1; omega)

/-- A significand without a leading bit is packed into the lowest binade. -/
theorem pack_subnormal {sign : Sign} {significand : BitVec 52} (h : 0 < significand.toNat) :
    UnpackedFloat.pack .binary64 (.finite sign significand.toNat (-1074) h)
      = packComponents .binary64 sign 0#11 significand := by
  have hbias : (-1074 + (Format.binary64.exponentBias : Int)
      + (Format.binary64.mantissaBitsWithoutImplicit : Int)).toNat = 1 := by decide
  have hshort : significand.toNat.log2 + 1 ≠ Format.binary64.mantissaBits := by
    have hlog : significand.toNat.log2 < 52 := (Nat.log2_lt h.ne').mpr significand.isLt
    have hbits : Format.binary64.mantissaBits = 53 := rfl
    omega
  unfold UnpackedFloat.pack
  dsimp only
  rw [hbias, if_neg (by decide), if_neg hshort, BitVec.ofNat_toNat]
  rfl

/-- A significand with a leading bit is packed without it, below its exponent. -/
theorem pack_normal {sign : Sign} {exponent : BitVec 11} {significand : BitVec 52}
    (hexponent : exponent.toNat < 2047) (h : 0 < 2 ^ 52 + significand.toNat) :
    UnpackedFloat.pack .binary64
        (.finite sign (2 ^ 52 + significand.toNat) (exponent.toNat - 1075) h)
      = packComponents .binary64 sign exponent significand := by
  have hlt := significand.isLt
  have hbias : ((exponent.toNat - 1075 : Int) + (Format.binary64.exponentBias : Int)
      + (Format.binary64.mantissaBitsWithoutImplicit : Int)).toNat = exponent.toNat := by
    have hbias : (Format.binary64.exponentBias : Int) = 1023 := rfl
    have hbits : (Format.binary64.mantissaBitsWithoutImplicit : Int) = 52 := rfl
    omega
  have hlong : (2 ^ 52 + significand.toNat).log2 + 1 = Format.binary64.mantissaBits := by
    have hlog : (2 ^ 52 + significand.toNat).log2 = 52 :=
      (Nat.log2_eq_iff (by omega)).mpr ⟨by omega, by omega⟩
    rw [hlog]
    rfl
  have hlow : BitVec.ofNat 52 (2 ^ 52 + significand.toNat) = significand := by
    apply BitVec.eq_of_toNat_eq
    rw [BitVec.toNat_ofNat, Nat.add_mod_left, Nat.mod_eq_of_lt hlt]
  unfold UnpackedFloat.pack
  dsimp only
  rw [hbias, if_neg (by show ¬ 2 ^ 11 ≤ _; omega), if_pos hlong, hlow, BitVec.ofNat_toNat]
  rfl

/-- Taking a bit pattern apart and packing it again changes nothing. -/
theorem pack_unpack {b : BitVec 64} (h : Format.binary64.Valid b) :
    UnpackedFloat.pack .binary64 (UnpackedFloat.unpack .binary64 b) = b := by
  have hb := @packComponents_eq .binary64 b
  unfold UnpackedFloat.unpack
  dsimp only
  by_cases hspecial : @unpackExponent .binary64 b = -BitVec.ofNat _ 1
  · rw [if_pos hspecial]
    by_cases hzero : @unpackMantissa .binary64 b = BitVec.ofNat _ 0
    · rw [if_pos hzero]
      rw [hspecial, hzero] at hb
      exact hb
    · rw [if_neg hzero]
      exact (h.eq_packedNaN hspecial hzero).symm
  · rw [if_neg hspecial]
    by_cases hlowest : @unpackExponent .binary64 b = BitVec.ofNat _ 0
    · rw [if_pos hlowest]
      by_cases hzero : @unpackMantissa .binary64 b = BitVec.ofNat _ 0
      · rw [dif_pos hzero]
        rw [hlowest, hzero] at hb
        exact hb
      · rw [dif_neg hzero]
        rw [hlowest] at hb ⊢
        exact (pack_subnormal _).trans hb
    · rw [if_neg hlowest]
      have hexponent : (@unpackExponent .binary64 b).toNat < 2047 := by
        have hlt := (@unpackExponent .binary64 b).isLt
        have hne : (@unpackExponent .binary64 b).toNat ≠ 2047 :=
          fun heq => hspecial (BitVec.eq_of_toNat_eq heq)
        change _ < 2 ^ 11 at hlt
        omega
      have hsignificand : (1#1 ++ @unpackMantissa .binary64 b).toNat
          = 2 ^ 52 + (@unpackMantissa .binary64 b).toNat := by
        rw [BitVec.toNat_append, ← Nat.shiftLeft_add_eq_or_of_lt (BitVec.isLt _)]
        rfl
      have hfinite : ∀ {m : Nat} (hm : 0 < m), m = 2 ^ 52 + (@unpackMantissa .binary64 b).toNat →
          UnpackedFloat.pack .binary64 (.finite (.ofBitVec (@unpackSign .binary64 b)) m
            ((@unpackExponent .binary64 b).toNat - 1075) hm) = b := by
        rintro _ hm rfl
        exact (pack_normal hexponent hm).trans hb
      exact hfinite _ hsignificand

/-- A double is read from its own bit pattern. -/
theorem ofBits_toBits (x : Float) : Float.ofBits x.toBits = x := by
  obtain ⟨⟨⟨bits⟩, h⟩⟩ := x
  unfold Float.ofBits Float.toBits Float.Model.ofBits Float.Model.pack
  congr
  exact pack_unpack h

end Treewalk.Decimal

import Reckoner.Decimal.Binary
import Reckoner.Decimal.Nearest
import Mathlib

/-!
# The bits of a double

A double is made from its bits and can be asked for them again. What is asked for is what it was
made from, as long as the bits do not say that it is not a number: those patterns are all one
double. The bits up to those of infinity, which are all that rounding produces, do not say so
(`toNat_toBits_ofBits`). Two fields of the word decide this, the exponent and the mantissa below it.
-/

namespace Reckoner.Decimal

open Float.Model UnpackedFloat

/-! ### The fields of a word -/

section Fields

variable {w : BitVec Format.binary64.numBits}

/-- The mantissa is what the word leaves below its exponent. -/
theorem toNat_unpackMantissa : (unpackMantissa w).toNat = w.toNat % 2 ^ 52 := by
  simp [unpackMantissa]

variable (hw : w.toNat ≤ infinityBits)

include hw

/-- Without a sign, the exponent is all that stands above the mantissa. -/
theorem toNat_unpackExponent : (unpackExponent w).toNat = w.toNat / 2 ^ 52 := by
  have hlt : w.toNat < 2 ^ 63 := Nat.lt_of_le_of_lt hw (by decide)
  simp only [unpackExponent, BitVec.toNat_cast, BitVec.extractLsb_toNat,
    Nat.shiftRight_eq_div_pow]
  omega

/-- The greatest exponent is that of infinity. -/
theorem unpackExponent_eq_iff : unpackExponent w = -1#_ ↔ w.toNat = infinityBits := by
  have hinfinity : infinityBits = 2047 * 2 ^ 52 := rfl
  have hones : unpackExponent w = -1#_ ↔ (unpackExponent w).toNat = 2047 := BitVec.toNat_inj.symm
  rw [hones, toNat_unpackExponent hw]
  omega

/-- No word up to that of infinity has the greatest exponent and a mantissa as well, which would say
that it is not a number. -/
theorem unpackMantissa_of_unpackExponent (h : unpackExponent w = -1#_) :
    unpackMantissa w = 0#_ := by
  have hinfinity : infinityBits = 2047 * 2 ^ 52 := rfl
  have hw := (unpackExponent_eq_iff hw).1 h
  apply BitVec.eq_of_toNat_eq
  rw [toNat_unpackMantissa, hw, hinfinity, Nat.mul_mod_left]
  rfl

/-- The words up to that of infinity are numbers. -/
theorem isNaNBits_eq_false : isNaNBits w = false :=
  decide_eq_false fun h ↦ h.2 (unpackMantissa_of_unpackExponent hw h.1)

/-- Taking such a word apart and putting it together again changes nothing. -/
theorem pack_unpack_of_le : (UnpackedFloat.unpack .binary64 w).pack .binary64 = w := by
  rw [pack_unpack w, isNaNBits_eq_false hw, if_neg Bool.false_ne_true]

/-- Of these words only the last one is infinite. -/
theorem isInf_unpack :
    (UnpackedFloat.unpack .binary64 w).isInf = true ↔ w.toNat = infinityBits := by
  rw [← unpackExponent_eq_iff hw, UnpackedFloat.unpack]
  split
  case isTrue hones =>
    rw [if_pos (unpackMantissa_of_unpackExponent hw hones)]
    exact iff_of_true rfl hones
  case isFalse hones =>
    refine iff_of_false ?_ hones
    split_ifs
    all_goals exact Bool.false_ne_true

end Fields

/-! ### Doubles made from bits -/

section OfBits

variable {bits : Nat}

/-- **The bits of a double are those that it was made from.** -/
theorem toNat_toBits_ofBits (h : bits ≤ infinityBits) :
    (Float.ofBits (UInt64.ofNat bits)).toBits.toNat = bits := by
  have hlt : bits < 2 ^ 64 := Nat.lt_of_le_of_lt h (by decide)
  have hword : (UInt64.ofNat bits).toBitVec.toNat = bits := Nat.mod_eq_of_lt hlt
  exact (congrArg BitVec.toNat (pack_unpack_of_le (hword.trans_le h))).trans hword

theorem isNaN_ofBits (h : bits ≤ infinityBits) :
    (Float.ofBits (UInt64.ofNat bits)).isNaN = false := by
  rw [Float.isNaN_eq_decide_eq_nan]
  refine decide_eq_false fun hnan ↦ ?_
  have hbits := toNat_toBits_ofBits h
  have hlarge : infinityBits < Float.nan.toBits.toNat := by decide +kernel
  rw [hnan] at hbits
  omega

/-- A double is infinite just if it was made from the bits of infinity. -/
theorem isInf_ofBits (h : bits ≤ infinityBits) :
    (Float.ofBits (UInt64.ofNat bits)).isInf = true ↔ bits = infinityBits := by
  have hbits : (Float.ofBits (UInt64.ofNat bits)).toBits.toBitVec.toNat = bits :=
    toNat_toBits_ofBits h
  have hinf := isInf_unpack (hbits.trans_le h)
  rwa [hbits] at hinf

end OfBits

end Reckoner.Decimal

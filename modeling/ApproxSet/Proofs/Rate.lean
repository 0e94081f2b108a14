import ApproxSet.Rate
import Mathlib

/-!
# Bits of a rate

A double is kept as the bits it is read from unless they stand for no number. A rate is a number, so
its bits are those it was read from.
-/

namespace ApproxSet.Rate

open Float.Model (Format)
open Float.Model.UnpackedFloat (isNaNBits packedNaN pack_unpack)

/-- Bits that stand for no number are all read as one. -/
theorem toBitVec_toBits_ofBits (bits : UInt64) :
    (Float.ofBits bits).toBits.toBitVec =
      if @isNaNBits Format.binary64 bits.toBitVec then packedNaN .binary64
      else bits.toBitVec :=
  @pack_unpack Format.binary64 bits.toBitVec (by decide)

theorem not_valid_nan : ¬ Valid Float.nan := by
  decide +kernel

theorem toBits_ofBits {bits : UInt64} (h : Valid (Float.ofBits bits)) :
    (Float.ofBits bits).toBits = bits := by
  have hbits := toBitVec_toBits_ofBits bits
  split at hbits
  · have hnan : Float.ofBits bits = Float.nan :=
      Float.toBits_inj.mp (UInt64.toBitVec_inj.mp hbits)
    rw [hnan] at h
    exact absurd h not_valid_nan
  · exact UInt64.toBitVec_inj.mp hbits

end ApproxSet.Rate

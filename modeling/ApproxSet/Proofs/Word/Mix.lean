import ApproxSet.Proofs.Word
import ApproxSet.Word.Mix
import Mathlib.Data.Fintype.EquivFin
import Mathlib.Logic.Function.Basic

/-!
# Mixing loses nothing

A right xor-shift can be undone, and so can a multiplication by an odd constant. So words that differ
are still different after mixing, whatever the key, and every word is the mixture of some word.
-/

namespace ApproxSet.Word

/-- A shift to the right makes every word smaller but zero. -/
theorem eq_zero_of_shiftRight_eq {z : UInt64} {shift : Nat} (hpos : 0 < shift) (hlt : shift < 64)
    (h : z >>> UInt64.ofNat shift = z) : z = 0 := by
  have hdiv : z.toNat / 2 ^ shift = z.toNat := by
    rw [← toNat_shiftRight_ofNat z hlt, h]
  have hone : 1 < 2 ^ shift := Nat.one_lt_two_pow (Nat.ne_of_gt hpos)
  apply UInt64.toNat_inj.mp
  by_contra hz
  exact absurd hdiv (Nat.ne_of_lt (Nat.div_lt_self (Nat.pos_of_ne_zero hz) hone))

theorem xorShift_injective {shift : Nat} (hpos : 0 < shift) (hlt : shift < 64) :
    Function.Injective (xorShift shift) := by
  intro x y h
  -- the difference of the two words is its own shift
  have hdiff : (x ^^^ y) >>> UInt64.ofNat shift = x ^^^ y := by
    unfold xorShift at h
    rw [UInt64.shiftRight_xor]
    calc x >>> UInt64.ofNat shift ^^^ y >>> UInt64.ofNat shift
        = x ^^^ (x ^^^ x >>> UInt64.ofNat shift) ^^^ y >>> UInt64.ofNat shift := by
          rw [← UInt64.xor_assoc, UInt64.xor_self, UInt64.zero_xor]
      _ = x ^^^ (y ^^^ y >>> UInt64.ofNat shift) ^^^ y >>> UInt64.ofNat shift := by rw [h]
      _ = x ^^^ y := by
          rw [UInt64.xor_assoc, UInt64.xor_assoc, UInt64.xor_self, UInt64.xor_zero]
  exact UInt64.xor_eq_zero_iff.mp (eq_zero_of_shiftRight_eq hpos hlt hdiff)

theorem mul_right_injective (c inverse : UInt64) (h : c * inverse = 1) :
    Function.Injective (· * c) := by
  intro x y hxy
  have hback (z : UInt64) : z * c * inverse = z := by rw [UInt64.mul_assoc, h, UInt64.mul_one]
  calc x = x * c * inverse := (hback x).symm
    _ = y * c * inverse := congrArg (· * inverse) hxy
    _ = y := hback y

theorem mix_injective : Function.Injective mix := by
  have hfirst := mul_right_injective 0xbf58476d1ce4e5b9 0x96de1b173f119089 (by decide)
  have hsecond := mul_right_injective 0x94d049bb133111eb 0x319642b2d24d8ec3 (by decide)
  intro x y h
  have h31 := xorShift_injective (by decide) (by decide) h
  have h27 := xorShift_injective (by decide) (by decide) (hsecond h31)
  exact xorShift_injective (by decide) (by decide) (hfirst h27)

theorem keyed_injective (key : UInt64) : Function.Injective (keyed key) := by
  intro x y h
  unfold keyed at h
  by_cases hkey : key = 0
  · rwa [if_pos hkey, if_pos hkey] at h
  · rw [if_neg hkey, if_neg hkey] at h
    exact UInt64.xor_left_inj key |>.mp (mix_injective h)

/-- Under each key the words are permuted: as none is met twice, none of the finitely many is left
out. -/
theorem keyed_bijective (key : UInt64) : Function.Bijective (keyed key) := by
  have hfinite : Finite UInt64 :=
    Finite.of_injective UInt64.toFin fun _ _ h => UInt64.toFin_inj.mp h
  exact Finite.injective_iff_bijective.mp (keyed_injective key)

end ApproxSet.Word

import ApproxSet.Permutation
import ApproxSet.Proofs.Word

/-!
# Permutations undo themselves

Both rounds keep halves of the right widths and are their own inverses, whatever they hash, so the
only thing left to see is that cutting a word and joining its halves are inverse to each other.
Widths go up to 64, odd ones and the empty word included.
-/

namespace ApproxSet

namespace Halves

structure Fits (width : Nat) (h : Halves) : Prop where
  low_lt : h.low.toNat < 2 ^ (width / 2)
  high_lt : h.high.toNat < 2 ^ (width - width / 2)

theorem fits_split (width : Nat) (x : UInt64) : (split width x).Fits width :=
  ⟨Word.low_toNat_lt _ _, Word.low_toNat_lt _ _⟩

theorem toNat_join {width : Nat} {h : Halves} (hw : width ≤ 64) (fits : h.Fits width) :
    (h.join width).toNat = h.high.toNat * 2 ^ (width / 2) + h.low.toNat := by
  have hshift : (h.high <<< UInt64.ofNat (width / 2)).toNat = h.high.toNat * 2 ^ (width / 2) :=
    Word.toNat_shiftLeft_of_lt fits.high_lt (by omega) (by omega)
  unfold join
  rw [Word.toNat_or_of_mod_eq_zero (k := width / 2) _ fits.low_lt, hshift]
  rw [hshift, Nat.mul_mod_left]

theorem join_lt {width : Nat} {h : Halves} (hw : width ≤ 64) (fits : h.Fits width) :
    (h.join width).toNat < 2 ^ width := by
  have hl := fits.low_lt
  have hh := fits.high_lt
  have hpow : 2 ^ width = 2 ^ (width - width / 2) * 2 ^ (width / 2) :=
    Word.two_pow_eq_mul (by omega)
  rw [toNat_join hw fits, hpow]
  calc h.high.toNat * 2 ^ (width / 2) + h.low.toNat
      < h.high.toNat * 2 ^ (width / 2) + 2 ^ (width / 2) := Nat.add_lt_add_left hl _
    _ = (h.high.toNat + 1) * 2 ^ (width / 2) := by rw [Nat.add_mul, Nat.one_mul]
    _ ≤ 2 ^ (width - width / 2) * 2 ^ (width / 2) := Nat.mul_le_mul_right _ hh

theorem split_join {width : Nat} {h : Halves} (hw : width ≤ 64) (fits : h.Fits width) :
    split width (h.join width) = h := by
  have hl := fits.low_lt
  have hlow : Word.low (width / 2) (h.join width) = h.low := by
    apply UInt64.toNat_inj.mp
    rw [Word.toNat_low, toNat_join hw fits, Nat.mul_add_mod_self_right, Nat.mod_eq_of_lt hl]
  have hhigh : Word.low (width - width / 2) (h.join width >>> UInt64.ofNat (width / 2)) = h.high := by
    apply UInt64.toNat_inj.mp
    rw [Word.toNat_low, Word.toNat_shiftRight_ofNat _ (by omega), toNat_join hw fits,
      Nat.add_comm, Nat.add_mul_div_right _ _ (Nat.two_pow_pos _), Nat.div_eq_of_lt hl,
      Nat.zero_add, Nat.mod_eq_of_lt fits.high_lt]
  unfold split
  rw [hlow, hhigh]

theorem join_split {width : Nat} (hw : width ≤ 64) (x : UInt64) :
    (split width x).join width = Word.low width x := by
  apply UInt64.toNat_inj.mp
  have hpow : 2 ^ width = 2 ^ (width / 2) * 2 ^ (width - width / 2) :=
    Word.two_pow_eq_mul (by omega)
  rw [toNat_join hw (fits_split width x)]
  simp only [split, Word.toNat_low]
  rw [Word.toNat_shiftRight_ofNat _ (by omega), hpow, Nat.mod_mul, Nat.mul_comm, Nat.add_comm]

theorem split_low {width : Nat} (hw : width ≤ 64) (x : UInt64) :
    split width (Word.low width x) = split width x := by
  rw [← join_split hw, split_join hw (fits_split width x)]

end Halves

namespace Round

theorem fits_mixLow (k : Round) {width : Nat} {h : Halves} (fits : h.Fits width) :
    (k.mixLow width h).Fits width := by
  refine ⟨Word.xor_toNat_lt fits.low_lt ?_, fits.high_lt⟩
  have hcut : width - (width - width / 2) = width / 2 := by omega
  unfold hash
  rw [hcut]
  exact Word.low_toNat_lt _ _

theorem fits_mixHigh (k : Round) {width : Nat} {h : Halves} (fits : h.Fits width) :
    (k.mixHigh width h).Fits width :=
  ⟨fits.low_lt, Word.xor_toNat_lt fits.high_lt (Word.low_toNat_lt _ _)⟩

end Round

namespace Permutation

variable (p : Permutation) {width : Nat}

theorem forward_lt (hw : width ≤ 64) (x : UInt64) : (p.forward width x).toNat < 2 ^ width :=
  Halves.join_lt hw (Round.fits_mixHigh _ (Round.fits_mixLow _ (Halves.fits_split _ _)))

theorem backward_lt (hw : width ≤ 64) (y : UInt64) : (p.backward width y).toNat < 2 ^ width :=
  Halves.join_lt hw (Round.fits_mixLow _ (Round.fits_mixHigh _ (Halves.fits_split _ _)))

theorem backward_forward (hw : width ≤ 64) (x : UInt64) :
    p.backward width (p.forward width x) = Word.low width x := by
  unfold backward forward
  rw [Halves.split_join hw
      (Round.fits_mixHigh _ (Round.fits_mixLow _ (Halves.fits_split _ _))),
    Round.mixHigh_mixHigh, Round.mixLow_mixLow, Halves.join_split hw]

theorem forward_backward (hw : width ≤ 64) (y : UInt64) :
    p.forward width (p.backward width y) = Word.low width y := by
  unfold backward forward
  rw [Halves.split_join hw
      (Round.fits_mixLow _ (Round.fits_mixHigh _ (Halves.fits_split _ _))),
    Round.mixLow_mixLow, Round.mixHigh_mixHigh, Halves.join_split hw]

/-- Among words of the right width, only one is sent back to a given word. -/
theorem backward_inj (hw : width ≤ 64) {y z : UInt64} (hy : y.toNat < 2 ^ width)
    (hz : z.toNat < 2 ^ width) (h : p.backward width y = p.backward width z) : y = z := by
  rw [← Word.low_of_lt hy, ← Word.low_of_lt hz, ← p.forward_backward hw, h,
    p.forward_backward hw]

theorem forward_low (hw : width ≤ 64) (x : UInt64) :
    p.forward width (Word.low width x) = p.forward width x := by
  unfold forward
  rw [Halves.split_low hw]

/-- Whatever the keys, the words of a width are permuted, and the bits above them do not matter. -/
theorem permutes_words (hw : width ≤ 64) :
    (∀ x, (p.forward width x).toNat < 2 ^ width) ∧
      (∀ x y : UInt64, x.toNat % 2 ^ width = y.toNat % 2 ^ width →
        p.forward width x = p.forward width y) ∧
      (∀ x, (p.backward width (p.forward width x)).toNat = x.toNat % 2 ^ width) ∧
      ∀ y : UInt64, y.toNat < 2 ^ width → p.forward width (p.backward width y) = y := by
  refine ⟨p.forward_lt hw, ?_, ?_, ?_⟩
  · intro x y hxy
    have hlow : Word.low width x = Word.low width y := by
      apply UInt64.toNat_inj.mp
      rw [Word.toNat_low, Word.toNat_low, hxy]
    rw [← p.forward_low hw x, hlow, p.forward_low hw y]
  · intro x
    rw [p.backward_forward hw, Word.toNat_low]
  · intro y hy
    rw [p.forward_backward hw, Word.low_of_lt hy]

/-- The halves of a 63-bit word have 31 and 32 bits, and the top bit of the word that holds it is
left out. -/
theorem permutes_words_of_odd_width :
    let p := ofWords 0x2ba7538ee1234073 0xfcc3777539b147d6 0x6086c563576347e7 0x52eff34ee1764465
    63 ≤ 64 ∧ (p.forward 63 0xfedcba9876543210).toNat < 2 ^ 63 ∧
      p.forward 63 0xfedcba9876543210 = p.forward 63 0x7edcba9876543210 ∧
      p.backward 63 (p.forward 63 0xfedcba9876543210) = 0x7edcba9876543210 ∧
      p.forward 63 (p.backward 63 0x7edcba9876543210) = 0x7edcba9876543210 := by
  intro p
  have hw : 63 ≤ 64 := by decide
  rcases p.permutes_words hw with ⟨hlt, hlow, hback, hforth⟩
  exact ⟨hw, hlt _, hlow _ _ (by decide), UInt64.toNat_inj.mp (hback _), hforth _ (by decide)⟩

end Permutation

end ApproxSet

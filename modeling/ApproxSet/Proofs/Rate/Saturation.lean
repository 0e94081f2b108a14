import ApproxSet.Proofs.Rate.Rounding
import ApproxSet.Proofs.Sizing

/-!
# The rate in use gives up

The mean of the sum is taken only for at most three hashes a bit. The number of hashes a bit is known
after four roundings: of the two counts, of the bits and of the quotient. One hash more than 24 a byte is
not lost in them while a filter has fewer than `2 ^ 37` bytes.
-/

namespace ApproxSet.Rate

theorem value_three : Value 3 (3 * 2 ^ 51) (-51) :=
  ⟨⟨by decide, rfl⟩, by decide, by decide⟩

theorem value_eight : Value 8 (2 ^ 52) (-49) :=
  ⟨⟨by decide, rfl⟩, by decide, by decide⟩

theorem three_lt_of_close {count bytes : Nat} {hashes size bits ratio : ℚ} (hbytes : bytes ≤ 2 ^ 37)
    (hover : 24 * bytes < count) (hbits : 0 < bits) (hhashes : Close hashes count)
    (hsize : Close size bytes) (hproduct : Close bits (size * 8))
    (hratio : Close ratio (hashes / bits)) : 3 < ratio := by
  by_contra hle
  have hover' : (24 * bytes + 1 : ℚ) ≤ count := by exact_mod_cast hover
  have hbytes' : (bytes : ℚ) ≤ 2 ^ 37 := by exact_mod_cast hbytes
  have hquotient := hratio.2
  rw [← mul_div_assoc, div_le_iff₀ hbits] at hquotient
  have hpart : 2 ^ 52 * hashes ≤ (2 ^ 52 + 1) * 3 * bits :=
    hquotient.trans (mul_le_mul_of_nonneg_right (by linarith) hbits.le)
  have hcount := hhashes.2
  have hfill := hproduct.1
  have hspace := hsize.1
  norm_num at hpart hcount hfill hspace
  linarith

theorem saturates_poisson : Saturates poisson := by
  intro count bytes hcount hbytes hover
  have hbytes' : bytes ≤ 2 ^ 37 := hbytes.trans (by decide)
  rcases exists_value_ofCount (by omega) hcount with ⟨m, e, hhashes, hrange, hclose⟩
  unfold poisson
  simp only [hhashes.beq_zero_eq, Bool.false_eq_true, if_false]
  split
  · rfl
  · rename_i hsome
    have hpos : 0 < bytes := by
      refine Nat.pos_of_ne_zero ?_
      rintro rfl
      exact hsome (by decide +kernel)
    rcases exists_value_ofCount hpos (by omega) with ⟨mSize, eSize, hsize, hrangeSize, hcloseSize⟩
    rcases exists_value_mul hsize value_eight (by omega) (by omega) with
      ⟨mBits, eBits, hbits, hrangeBits, hcloseBits⟩
    rcases exists_value_div hhashes hbits (by omega) (by omega) with
      ⟨mRatio, eRatio, hratio, hcloseRatio⟩
    refine if_pos (value_three.lt hratio ?_)
    have hthree : ((3 * 2 ^ 51 : Nat) : ℚ) * 2 ^ (-51 : Int) = 3 := by norm_num
    have height : ((2 ^ 52 : Nat) : ℚ) * 2 ^ (-49 : Int) = 8 := by norm_num
    have hbitsPos : (0 : ℚ) < mBits * 2 ^ eBits := by
      have := hbits.full.pos
      positivity
    rw [hthree]
    rw [height] at hcloseBits
    exact three_lt_of_close hbytes' hover hbitsPos hclose hcloseSize hcloseBits hcloseRatio

end ApproxSet.Rate

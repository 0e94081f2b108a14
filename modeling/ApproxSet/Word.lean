import ApproxSet.Power

/-!
# Machine words

Low bits of a 64-bit word, and the multiply-and-shift reduction of a uniform word to a smaller
range. Reductions return natural numbers: they are used as positions, never as words.
-/

namespace ApproxSet.Word

/-- The low `width` bits of `x`; a width of 64 or more keeps the whole word. -/
def low (width : Nat) (x : UInt64) : UInt64 :=
  if 64 ≤ width then x else x &&& ((1 <<< UInt64.ofNat width) - 1)

/-- Scales a 32-bit word evenly onto the numbers below `n`. -/
def scale32 (x : UInt32) (n : Nat) : Nat :=
  x.toNat * n / 2 ^ 32

def scale64 (x : UInt64) (n : Nat) : Nat :=
  x.toNat * n / 2 ^ 64

theorem scale32_lt (x : UInt32) {n : Nat} (hn : 0 < n) : scale32 x n < n := by
  refine Nat.div_lt_of_lt_mul ?_
  exact Nat.mul_lt_mul_of_pos_right x.toNat_lt hn

theorem scale64_lt (x : UInt64) {n : Nat} (hn : 0 < n) : scale64 x n < n := by
  refine Nat.div_lt_of_lt_mul ?_
  exact Nat.mul_lt_mul_of_pos_right x.toNat_lt hn

end ApproxSet.Word

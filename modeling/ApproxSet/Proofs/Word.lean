import ApproxSet.Word

/-!
# Words as numbers

Every shift, mask and splice of a 64-bit word used by the filters, as arithmetic on its value. What
follows about permutations, stems and widening is stated in these numbers.
-/

namespace ApproxSet.Word

theorem two_pow_eq_mul {a b c : Nat} (h : c = a + b) : 2 ^ c = 2 ^ a * 2 ^ b := by
  rw [h, Nat.pow_add]

/-- Cutting off places twice is cutting them off at once. -/
theorem div_two_pow_div {a b c : Nat} (n : Nat) (h : c = a + b) :
    n / 2 ^ a / 2 ^ b = n / 2 ^ c := by
  rw [Nat.div_div_eq_div_mul, two_pow_eq_mul h]

theorem two_pow_lt {k : Nat} (hk : k < 64) : 2 ^ k < 2 ^ 64 :=
  Nat.pow_lt_pow_right (by decide) hk

theorem toNat_ofNat_of_lt {k : Nat} (hk : k < 64) : (UInt64.ofNat k).toNat % 64 = k := by
  rw [UInt64.toNat_ofNat', Nat.mod_eq_of_lt (Nat.lt_trans hk (by decide)), Nat.mod_eq_of_lt hk]

theorem toNat_shiftRight_ofNat (x : UInt64) {k : Nat} (hk : k < 64) :
    (x >>> UInt64.ofNat k).toNat = x.toNat / 2 ^ k := by
  rw [UInt64.toNat_shiftRight, toNat_ofNat_of_lt hk, Nat.shiftRight_eq_div_pow]

theorem toNat_shiftLeft_ofNat (x : UInt64) {k : Nat} (hk : k < 64) :
    (x <<< UInt64.ofNat k).toNat = x.toNat * 2 ^ k % 2 ^ 64 := by
  rw [UInt64.toNat_shiftLeft, toNat_ofNat_of_lt hk, Nat.shiftLeft_eq]

/-- A word below `2 ^ a` moves up by `b` places without loss if there is room for it. -/
theorem toNat_shiftLeft_of_lt {x : UInt64} {a b : Nat} (hx : x.toNat < 2 ^ a) (hb : b < 64)
    (hab : a + b ≤ 64) : (x <<< UInt64.ofNat b).toNat = x.toNat * 2 ^ b := by
  rw [toNat_shiftLeft_ofNat x hb]
  apply Nat.mod_eq_of_lt
  calc x.toNat * 2 ^ b < 2 ^ a * 2 ^ b := Nat.mul_lt_mul_of_pos_right hx (Nat.two_pow_pos b)
    _ = 2 ^ (a + b) := (two_pow_eq_mul rfl).symm
    _ ≤ 2 ^ 64 := Nat.pow_le_pow_right Nat.two_pos hab

/-- A word comes back from a shift if no bit of it is lost. -/
theorem shiftLeft_shiftRight_eq_iff (x : UInt64) {k : Nat} (hk : k < 64) :
    (x <<< UInt64.ofNat k) >>> UInt64.ofNat k = x ↔ x.toNat * 2 ^ k < 2 ^ 64 := by
  have hpos := Nat.two_pow_pos k
  rw [← UInt64.toNat_inj, toNat_shiftRight_ofNat _ hk, toNat_shiftLeft_ofNat x hk]
  constructor
  · intro hback
    have hle := Nat.div_mul_le_self (x.toNat * 2 ^ k % 2 ^ 64) (2 ^ k)
    rw [hback] at hle
    exact Nat.lt_of_le_of_lt hle (Nat.mod_lt _ (by decide))
  · intro hroom
    rw [Nat.mod_eq_of_lt hroom, Nat.mul_div_cancel _ hpos]

theorem toNat_low (width : Nat) (x : UInt64) : (low width x).toNat = x.toNat % 2 ^ width := by
  unfold low
  by_cases h : 64 ≤ width
  · rw [if_pos h]
    have hx : x.toNat < 2 ^ width :=
      Nat.lt_of_lt_of_le x.toNat_lt (Nat.pow_le_pow_right Nat.two_pos h)
    exact (Nat.mod_eq_of_lt hx).symm
  · have hw : width < 64 := by omega
    have hpow := two_pow_lt hw
    have hone : ((1 : UInt64) <<< UInt64.ofNat width).toNat = 2 ^ width := by
      rw [toNat_shiftLeft_ofNat 1 hw]
      simpa using Nat.mod_eq_of_lt hpow
    have hmask : ((1 : UInt64) <<< UInt64.ofNat width - 1).toNat = 2 ^ width - 1 := by
      rw [UInt64.toNat_sub_of_le _ _ (by
        rw [UInt64.le_iff_toNat_le, hone]; exact Nat.two_pow_pos width), hone]
      rfl
    rw [if_neg h, UInt64.toNat_and, hmask, Nat.and_two_pow_sub_one_eq_mod]

theorem low_toNat_lt (width : Nat) (x : UInt64) : (low width x).toNat < 2 ^ width := by
  rw [toNat_low]
  exact Nat.mod_lt _ (Nat.two_pow_pos width)

theorem low_of_lt {width : Nat} {x : UInt64} (hx : x.toNat < 2 ^ width) : low width x = x := by
  apply UInt64.toNat_inj.mp
  rw [toNat_low, Nat.mod_eq_of_lt hx]

/-- Writing `y` into the low places of `x`, all of them zero, is addition. -/
theorem toNat_or_of_mod_eq_zero {x y : UInt64} {k : Nat} (hx : x.toNat % 2 ^ k = 0)
    (hy : y.toNat < 2 ^ k) : (x ||| y).toNat = x.toNat + y.toNat := by
  have hsplit : x.toNat = 2 ^ k * (x.toNat / 2 ^ k) := by
    have hdiv := Nat.div_add_mod x.toNat (2 ^ k)
    omega
  rw [UInt64.toNat_or, hsplit]
  exact (Nat.two_pow_add_eq_or_of_lt hy _).symm

theorem xor_toNat_lt {x y : UInt64} {k : Nat} (hx : x.toNat < 2 ^ k) (hy : y.toNat < 2 ^ k) :
    (x ^^^ y).toNat < 2 ^ k := by
  rw [UInt64.toNat_xor]
  exact Nat.xor_lt_two_pow hx hy

end ApproxSet.Word

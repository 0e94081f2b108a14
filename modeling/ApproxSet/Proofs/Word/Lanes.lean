import ApproxSet.Power
import ApproxSet.Word.Lanes
import Mathlib.Data.Nat.Bitwise
import Mathlib.Data.Nat.Digits.Defs

/-!
# Searching lanes

Lanes are digits in base 1024. Taking one from every digit borrows from the next digit only out of a
zero. So the lowest zero shows at the top of its lane, and where there is none nothing shows.
-/

namespace ApproxSet.Lanes

theorem lane_eq (x : UInt64) (i : Fin 4) : lane x i = x.toNat / 1024 ^ (i : Nat) % 1024 := by
  unfold lane laneBits
  rw [Nat.pow_mul]

/-- A number made of digits below 1024 has these digits. -/
theorem ofDigits_digit {digits : List Nat} (h : ∀ d ∈ digits, d < 1024) (i : Nat) :
    Nat.ofDigits 1024 digits / 1024 ^ i % 1024 = digits.getD i 0 := by
  rw [Nat.ofDigits_div_pow_eq_ofDigits_drop i (by decide) digits h, List.getD_eq_getElem?_getD,
    ← List.head?_drop]
  cases hrest : digits.drop i with
  | nil => rfl
  | cons d rest =>
      have hd : d < 1024 := h d (List.mem_of_mem_drop (hrest ▸ List.mem_cons_self))
      rw [Nat.ofDigits_cons, Nat.add_mul_mod_self_left, Nat.mod_eq_of_lt hd]
      rfl

/-! ## Borrows -/

/-- A one in each of `n` digits. -/
def repunit : Nat → Nat
  | 0 => 0
  | n + 1 => 1 + 1024 * repunit n

/-- What is subtracted may wrap around above the `n` digits, so `y` is known up to a multiple of
`1024 ^ n`. -/
theorem exists_top_iff (n : Nat) {x y t : Nat} (h : y + repunit n = x + 1024 ^ n * t) :
    (∃ i < n, 512 ≤ y / 1024 ^ i % 1024 ∧ x / 1024 ^ i % 1024 < 512) ↔
      ∃ i < n, x / 1024 ^ i % 1024 = 0 := by
  induction n generalizing x y with
  | zero => simp
  | succ n ih =>
      rw [Nat.exists_lt_succ_left, Nat.exists_lt_succ_left]
      simp only [Nat.pow_zero, Nat.div_one, Nat.pow_succ', ← Nat.div_div_eq_div_mul]
      rw [Nat.pow_succ', Nat.mul_assoc, repunit] at h
      by_cases hzero : x % 1024 = 0
      · have htop : 512 ≤ y % 1024 := by omega
        simp [hzero, htop]
      · have hborrow : y / 1024 + repunit n = x / 1024 + 1024 ^ n * t := by omega
        have hlow : ¬ (512 ≤ y % 1024 ∧ x % 1024 < 512) := by omega
        rw [ih hborrow]
        simp [hzero, hlow]

theorem exists_top_sub_ones_iff (x : UInt64) :
    (∃ i : Fin 4, 512 ≤ lane (x - ones) i ∧ lane x i < 512) ↔ ∃ i : Fin 4, lane x i = 0 := by
  have hones : ones.toNat = repunit 4 := by decide
  have hsub : ∃ t, (x - ones).toNat + repunit 4 = x.toNat + 1024 ^ 4 * t := by
    have hx := x.toNat_lt
    have hlt := ones.toNat_lt
    rw [UInt64.toNat_sub, ← hones]
    by_cases hle : ones.toNat ≤ x.toNat
    · exact ⟨0, by omega⟩
    · exact ⟨2 ^ 24, by omega⟩
  rcases hsub with ⟨t, ht⟩
  have hdigits := exists_top_iff 4 ht
  simpa only [lane_eq, Fin.exists_iff, exists_prop] using hdigits

/-! ## Tops -/

/-- The top bit of a lane is set if the lane holds 512 or more. -/
theorem testBit_top (x : UInt64) (i : Fin 4) :
    x.toNat.testBit (laneBits * i + 9) = decide (512 ≤ lane x i) := by
  rw [Nat.testBit_eq_decide_div_mod_eq, Nat.pow_add, ← Nat.div_div_eq_div_mul]
  apply decide_eq_decide.mpr
  show x.toNat / 2 ^ (laneBits * i) / 512 % 2 = 1 ↔ 512 ≤ x.toNat / 2 ^ (laneBits * i) % 1024
  omega

theorem testBit_tops (k : Nat) :
    tops.toNat.testBit k = true ↔ ∃ i : Fin 4, k = laneBits * i + 9 := by
  by_cases hk : k < 40
  · revert k
    decide
  · have hlow : tops.toNat < 2 ^ k :=
      Nat.lt_of_lt_of_le (by decide : tops.toNat < 2 ^ 40)
        (Nat.pow_le_pow_right Nat.two_pos (Nat.not_lt.mp hk))
    have hnone (i : Fin 4) : k ≠ laneBits * i + 9 := by
      unfold laneBits
      omega
    simp [Nat.testBit_lt_two_pow hlow, hnone]

theorem testBit_not (x : UInt64) {k : Nat} (hk : k < 64) :
    (~~~x).toNat.testBit k = !x.toNat.testBit k := by
  have hsize : UInt64.size - 1 - x.toNat = 2 ^ 64 - (x.toNat + 1) := by
    show 2 ^ 64 - 1 - x.toNat = _
    omega
  rw [UInt64.toNat_not, hsize, Nat.testBit_two_pow_sub_succ x.toNat_lt, decide_eq_true hk,
    Bool.true_and]

theorem testBit_and_tops (x y : UInt64) (k : Nat) :
    (y &&& ~~~x &&& tops).toNat.testBit k = true ↔
      ∃ i : Fin 4, k = laneBits * i + 9 ∧ 512 ≤ lane y i ∧ lane x i < 512 := by
  have hlane (i : Fin 4) : ((y.toNat.testBit (laneBits * i + 9) &&
      (~~~x).toNat.testBit (laneBits * i + 9)) = true) ↔ 512 ≤ lane y i ∧ lane x i < 512 := by
    rw [testBit_not x (by unfold laneBits; omega), testBit_top, testBit_top]
    simp
  rw [UInt64.toNat_and, UInt64.toNat_and, Nat.testBit_and, Nat.testBit_and, Bool.and_eq_true,
    testBit_tops]
  constructor
  · intro hbits
    obtain ⟨hbits, i, rfl⟩ := hbits
    exact ⟨i, rfl, (hlane i).mp hbits⟩
  · intro htop
    obtain ⟨i, rfl, htop⟩ := htop
    exact ⟨(hlane i).mpr htop, i, rfl⟩

theorem anyZero_iff (x : UInt64) : anyZero x = true ↔ ∃ i : Fin 4, lane x i = 0 := by
  have hbits := testBit_and_tops x (x - ones)
  rw [← exists_top_sub_ones_iff, anyZero, bne_iff_ne, ne_eq, ← UInt64.toNat_inj]
  constructor
  · intro hne
    obtain ⟨k, hk⟩ := Nat.exists_testBit_of_ne_zero hne
    rcases (hbits k).mp hk with ⟨i, -, htop⟩
    exact ⟨i, htop⟩
  · intro htop hzero
    rcases htop with ⟨i, htop⟩
    have hk := (hbits (laneBits * i + 9)).mpr ⟨i, rfl, htop⟩
    rw [hzero] at hk
    simp at hk

/-! ## Comparing -/

theorem lane_ones_mul {n : UInt64} (hn : n.toNat < 1024) (i : Fin 4) :
    lane (ones * n) i = n.toNat := by
  have hnat : (ones * n).toNat = Nat.ofDigits 1024 [n.toNat, n.toNat, n.toNat, n.toNat] := by
    have hones : ones.toNat = 1 + 1024 + 1024 ^ 2 + 1024 ^ 3 := by decide
    simp only [UInt64.toNat_mul, hones, Nat.ofDigits_cons, Nat.ofDigits_nil]
    omega
  rw [lane_eq, hnat, ofDigits_digit (by simpa using hn)]
  match i with
  | 0 | 1 | 2 | 3 => rfl

/-- The packed search finds exactly what is in some lane. -/
theorem anyEq_iff (x : UInt64) {n : UInt64} (hn : n.toNat < 1024) :
    anyEq x n = true ↔ ∃ i : Fin 4, lane x i = n.toNat := by
  have hxor (i : Fin 4) : lane (x ^^^ (ones * n)) i = lane x i ^^^ lane (ones * n) i := by
    unfold lane
    rw [UInt64.toNat_xor, Nat.xor_div_two_pow, Nat.xor_mod_two_pow]
  simp only [anyEq, anyZero_iff, hxor, lane_ones_mul hn, Nat.xor_eq_zero_iff]

/-- The lanes are the digits of the low 40 bits. -/
theorem ofDigits_lanes (x : UInt64) :
    Nat.ofDigits 1024 (List.ofFn (lane x)) = x.toNat % 2 ^ 40 := by
  simp only [List.ofFn_succ, List.ofFn_zero, Nat.ofDigits_cons, Nat.ofDigits_nil, lane_eq,
    Fin.val_zero, Fin.val_succ, pow_zero, pow_one, Nat.div_one, Nat.reduceAdd, Nat.reducePow]
  omega

/-- One search of the whole word says what a search lane by lane says, of any value of a lane and in
particular of zero. Nothing above the four lanes counts. -/
theorem anyEq_iff_exists_lane (x : UInt64) {n : UInt64} (hn : n.toNat < 1024) :
    (anyEq x n = true ↔ ∃ i : Fin 4, lane x i = n.toNat) ∧
      (anyZero x = true ↔ ∃ i : Fin 4, lane x i = 0) ∧
      (∀ i, lane x i < 1024) ∧ Nat.ofDigits 1024 (List.ofFn (lane x)) = x.toNat % 2 ^ 40 := by
  refine ⟨anyEq_iff x hn, anyZero_iff x, ?_, ofDigits_lanes x⟩
  intro i
  rw [lane_eq]
  exact Nat.mod_lt _ (by decide)

/-- Lanes 7, 6, 500 and 1023 below bits that do not matter. Searching for 7 leaves lane 0 zero and
lane 1 one, so the borrow from lane 0 makes lane 1 look like a zero as well; 5 is found nowhere. -/
theorem anyEq_iff_exists_lane_of_borrow :
    let x : UInt64 := 0xabcdefffdf401807
    List.ofFn (lane x) = [7, 6, 500, 1023] ∧ (7 : UInt64).toNat < 1024 ∧ (5 : UInt64).toNat < 1024 ∧
      anyEq x 7 = true ∧ anyEq x 5 = false ∧ anyZero x = false := by
  intro x
  have h7 : (7 : UInt64).toNat < 1024 := by decide
  have h5 : (5 : UInt64).toNat < 1024 := by decide
  rcases anyEq_iff_exists_lane x h7 with ⟨hseven, hzero, -⟩
  rcases anyEq_iff_exists_lane x h5 with ⟨hfive, -⟩
  refine ⟨by decide, h7, h5, hseven.mpr ⟨0, by decide⟩, ?_, ?_⟩
  · rw [← Bool.not_eq_true, hfive]
    decide
  · rw [← Bool.not_eq_true, hzero]
    decide

end ApproxSet.Lanes

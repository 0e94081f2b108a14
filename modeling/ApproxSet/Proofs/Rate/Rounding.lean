import ApproxSet.Proofs.Rate.Order
import Mathlib

/-!
# Rounded arithmetic

Counts, products and quotients of doubles are rounded to 53 bits. Away from the ends of the exponents
that moves a number by at most one part in `2 ^ 52`, which is all that is used of rounding: whether a tie
goes up or down does not matter.
-/

namespace ApproxSet.Rate

open Float.Model (Format UnpackedFloat totalExponent)
open Float.Model.UnpackedFloat

variable {m n k : Nat} {e f : Int}

/-! ## Mantissas -/

/-- All 53 bits are in use. -/
def Full (m : Nat) : Prop := 2 ^ 52 ≤ m ∧ m < 2 ^ 53

theorem Full.pos (h : Full m) : 0 < m :=
  Nat.lt_of_lt_of_le (by decide) h.1

theorem Full.log2_eq (h : Full m) : m.log2 = 52 :=
  (Nat.log2_eq_iff (Nat.ne_of_gt h.pos)).mpr h

theorem full_div (hlog : m.log2 = 52 + k) : Full (m / 2 ^ k) := by
  have hne : m ≠ 0 := by
    rintro rfl
    rw [Nat.log2_zero] at hlog
    omega
  rcases (Nat.log2_eq_iff hne).mp hlog with ⟨hle, hlt⟩
  constructor
  · rw [Nat.le_div_iff_mul_le (Nat.two_pow_pos k), ← Nat.pow_add]
    exact hle
  · rw [Nat.div_lt_iff_lt_mul (Nat.two_pow_pos k), ← Nat.pow_add]
    rwa [Nat.add_right_comm] at hlt

theorem Full.log2_mul (hm : Full m) (hn : Full n) :
    ∃ k, (k = 52 ∨ k = 53) ∧ (m * n).log2 = 52 + k := by
  have hlow := Nat.mul_le_mul hm.1 hn.1
  have hhigh := Nat.mul_lt_mul'' hm.2 hn.2
  have hne : m * n ≠ 0 := Nat.mul_ne_zero hm.pos.ne' hn.pos.ne'
  by_cases hshort : m * n < 2 ^ 105
  · exact ⟨52, .inl rfl, (Nat.log2_eq_iff hne).mpr ⟨hlow, hshort⟩⟩
  · exact ⟨53, .inr rfl, (Nat.log2_eq_iff hne).mpr ⟨Nat.not_lt.mp hshort, hhigh⟩⟩

/-- A quotient of mantissas has 53 or 54 bits before its point once it is moved by 53. -/
theorem Full.log2_div (hm : Full m) (hn : Full n) :
    ∃ k, (k = 0 ∨ k = 1) ∧ (m * 2 ^ 53 / n).log2 = 52 + k := by
  rcases hm with ⟨hm₁, hm₂⟩
  have hlow : 2 ^ 52 ≤ m * 2 ^ 53 / n := by
    rw [Nat.le_div_iff_mul_le hn.pos]
    have := hn.2
    omega
  have hhigh : m * 2 ^ 53 / n < 2 ^ 54 := by
    rw [Nat.div_lt_iff_lt_mul hn.pos]
    have := hn.1
    omega
  have hne : m * 2 ^ 53 / n ≠ 0 := by omega
  by_cases hshort : m * 2 ^ 53 / n < 2 ^ 53
  · exact ⟨0, .inl rfl, (Nat.log2_eq_iff hne).mpr ⟨hlow, hshort⟩⟩
  · exact ⟨1, .inr rfl, (Nat.log2_eq_iff hne).mpr ⟨Nat.not_lt.mp hshort, hhigh⟩⟩

/-! ## Rounding -/

theorem mantissa_shiftRight (em : ExtendedMantissa) (k : Nat) :
    (em >>> k).mantissa = em.mantissa / 2 ^ k := by
  induction k with
  | zero => exact (Nat.div_one _).symm
  | succ k ih =>
      show (em >>> k).mantissa / 2 = _
      rw [ih, Nat.div_div_eq_div_mul, Nat.pow_succ]

theorem mantissa_ofMantissaAndAccuracy (m : Nat) (accuracy : Accuracy) :
    (ExtendedMantissa.ofMantissaAndAccuracy m accuracy).mantissa = m := by
  unfold ExtendedMantissa.ofMantissaAndAccuracy
  split <;> rfl

theorem roundedMantissa_bounds (em : ExtendedMantissa) :
    em.mantissa ≤ em.roundedMantissa ∧ em.roundedMantissa ≤ em.mantissa + 1 := by
  unfold ExtendedMantissa.roundedMantissa Accuracy.roundToNearestEven
  split <;> omega

/-- The exponent at which a mantissa has 53 bits. -/
theorem targetExponent_eq (hlog : m.log2 = 52 + k) (hnormal : -1074 ≤ e + k) :
    Format.binary64.targetExponent (totalExponent m e) = e + k := by
  unfold Format.targetExponent totalExponent
  rw [hlog]
  show max (((52 + k : Nat) : Int) + 1 + e - 53) (-1074) = e + k
  omega

theorem shiftToTargetExponent_eq (accuracy : Accuracy) (hlog : m.log2 = 52 + k)
    (hnormal : -1074 ≤ e + k) :
    (shiftToTargetExponent .binary64 m e accuracy).1.mantissa = m / 2 ^ k ∧
      (shiftToTargetExponent .binary64 m e accuracy).2 = e + k := by
  have hk : (Format.binary64.targetExponent (totalExponent m e) - e).toNat = k := by
    rw [targetExponent_eq hlog hnormal]
    omega
  simp only [shiftToTargetExponent, shiftToExponent, hk, mantissa_shiftRight,
    mantissa_ofMantissaAndAccuracy, and_self]

/-- A mantissa is cut to its first 53 bits, to which one may be added. That may carry, and then the last
bit is zero and is dropped. -/
theorem roundWithAccuracy_eq (accuracy : Accuracy) (hlog : m.log2 = 52 + k)
    (hnormal : -1074 ≤ e + k) :
    ∃ m' e' hpos, roundWithAccuracy .binary64 .positive m e accuracy =
        .finite .positive m' e' hpos ∧ Full m' ∧
      (e' = e + k ∧ (m' = m / 2 ^ k ∨ m' = m / 2 ^ k + 1) ∨
        e' = e + k + 1 ∧ 2 * m' = m / 2 ^ k + 1) := by
  have hfull := full_div hlog
  rcases shiftToTargetExponent_eq accuracy hlog hnormal with ⟨hmantissa, hexponent⟩
  have hrounded := roundedMantissa_bounds (shiftToTargetExponent .binary64 m e accuracy).1
  rw [hmantissa] at hrounded
  generalize hr : (shiftToTargetExponent .binary64 m e accuracy).1.roundedMantissa = r at hrounded
  have hfinal : ∀ j, r.log2 = 52 + j → ∃ hpos,
      roundWithAccuracy .binary64 .positive m e accuracy =
        .finite .positive (r / 2 ^ j) (e + k + j) hpos := by
    intro j hj
    rcases shiftToTargetExponent_eq .exact hj (e := e + k) (by omega) with
      ⟨hlast, hlastExponent⟩
    refine ⟨(full_div hj).pos, ?_⟩
    simp only [roundWithAccuracy, hr, hexponent, hlast, hlastExponent, (full_div hj).pos.ne',
      dif_neg, not_false_eq_true]
  by_cases hcarry : r < 2 ^ 53
  · have hr' : Full r := ⟨hfull.1.trans hrounded.1, hcarry⟩
    rcases hfinal 0 hr'.log2_eq with ⟨hpos, heq⟩
    rw [Nat.pow_zero, Nat.div_one] at hpos
    refine ⟨r, e + k, hpos, ?_, hr', .inl ⟨rfl, by omega⟩⟩
    rw [heq]
    simp
  · have hr' : r = 2 ^ 53 := by
      have := hfull.2
      omega
    subst hr'
    rcases hfinal 1 Nat.log2_two_pow with ⟨hpos, heq⟩
    refine ⟨_, _, hpos, heq, ⟨by decide, by decide⟩, .inr ⟨rfl, ?_⟩⟩
    have := hfull.2
    omega

/-! ## Closeness -/

/-- Two numbers differ by at most one part in `2 ^ 52` of either. -/
def Close (x y : ℚ) : Prop :=
  2 ^ 52 * x ≤ (2 ^ 52 + 1) * y ∧ 2 ^ 52 * y ≤ (2 ^ 52 + 1) * x

/-- Numbers between the same two neighbours of 53 bits are close. -/
theorem close_of_floor {c : Nat} {u x y : ℚ} (hc : 2 ^ 52 ≤ c) (hu : 0 < u)
    (hx : c * u ≤ x ∧ x ≤ (c + 1) * u) (hy : c * u ≤ y ∧ y ≤ (c + 1) * u) : Close x y := by
  have hunit : 2 ^ 52 * u ≤ c * u := by
    have hc' : (2 ^ 52 : ℚ) ≤ c := by exact_mod_cast hc
    exact mul_le_mul_of_nonneg_right hc' hu.le
  constructor <;> linarith

theorem two_zpow_add (e : Int) (k : Nat) : (2 : ℚ) ^ (e + k) = 2 ^ k * 2 ^ e := by
  rw [zpow_add₀ (by norm_num), zpow_natCast, mul_comm]

/-- Rounding stays close to any number that was cut to the mantissa `m`. -/
theorem close_roundWithAccuracy (accuracy : Accuracy) (hlog : m.log2 = 52 + k)
    (hnormal : -1074 ≤ e + k) :
    ∃ m' e' hpos, roundWithAccuracy .binary64 .positive m e accuracy =
        .finite .positive m' e' hpos ∧ Full m' ∧ (e + k ≤ e' ∧ e' ≤ e + k + 1) ∧
      ∀ q : ℚ, m * 2 ^ e ≤ q → q ≤ (m + 1) * 2 ^ e → Close (m' * 2 ^ e') q := by
  rcases roundWithAccuracy_eq accuracy hlog hnormal with ⟨m', e', hpos, heq, hfull, hcases⟩
  refine ⟨m', e', hpos, heq, hfull, by omega, fun q hlow hhigh => ?_⟩
  have hunit : (0 : ℚ) < 2 ^ (e + k) := by positivity
  have hfine : (0 : ℚ) < 2 ^ e := by positivity
  apply close_of_floor (full_div hlog).1 hunit
  · rcases hcases with ⟨rfl, rfl | rfl⟩ | ⟨rfl, hcarry⟩
    · exact ⟨le_rfl, by linarith⟩
    · push_cast
      exact ⟨by linarith, le_rfl⟩
    · have hvalue : (m' : ℚ) * 2 ^ (e + k + 1) = ((m / 2 ^ k : Nat) + 1) * 2 ^ (e + k) := by
        have hcarry' : (2 : ℚ) * m' = (m / 2 ^ k : Nat) + 1 := by exact_mod_cast hcarry
        rw [← hcarry', zpow_add_one₀ (by norm_num)]
        ring
      rw [hvalue]
      exact ⟨by linarith, le_rfl⟩
  · have hfloor : ((m / 2 ^ k : Nat) : ℚ) * 2 ^ k ≤ m := by
      exact_mod_cast Nat.div_mul_le_self m (2 ^ k)
    have hceil : (m : ℚ) + 1 ≤ ((m / 2 ^ k : Nat) + 1) * 2 ^ k := by
      rw [mul_comm]
      exact_mod_cast Nat.lt_mul_div_succ m (Nat.two_pow_pos k)
    rw [two_zpow_add, ← mul_assoc, ← mul_assoc]
    exact ⟨(mul_le_mul_of_nonneg_right hfloor hfine.le).trans hlow,
      hhigh.trans (mul_le_mul_of_nonneg_right hceil hfine.le)⟩

/-! ## Packing -/

theorem Full.toNat_append (h : Full m) : (1#1 ++ BitVec.ofNat 52 m).toNat = m := by
  rcases h with ⟨hle, hlt⟩
  rw [BitVec.toNat_append, ← Nat.shiftLeft_add_eq_or_of_lt (BitVec.isLt _), BitVec.toNat_ofNat]
  simp [Nat.shiftLeft_eq]
  omega

theorem Full.pack_eq {biased : Nat} (h : Full m) (he : e + 1075 = biased) (hlt : biased < 2047)
    (hpos : 0 < m) :
    pack Format.binary64 (.finite .positive m e hpos) =
      packComponents .binary64 .positive (BitVec.ofNat 11 biased) (BitVec.ofNat 52 m) := by
  have hexponent : (e + Format.binary64.exponentBias + (52 : Nat)).toNat = biased := by
    show (e + 1023 + 52).toNat = biased
    omega
  have hfits : ¬ 2 ^ 11 ≤ biased + 1 := by omega
  have hlog : m.log2 + 1 = Format.binary64.mantissaBits := congrArg (· + 1) h.log2_eq
  unfold pack
  simp only [hexponent, if_neg hfits, if_pos hlog]

theorem Full.unpack_pack (h : Full m) (hlow : -1074 ≤ e) (hhigh : e ≤ 900) (hpos : 0 < m) :
    (Float.Model.pack (.finite .positive m e hpos)).unpack = .finite .positive m e hpos := by
  obtain ⟨biased, hbiased⟩ : ∃ biased : Nat, e + 1075 = biased := ⟨(e + 1075).toNat, by omega⟩
  have hword : (BitVec.ofNat 11 biased).toNat = biased := by
    rw [BitVec.toNat_ofNat, Nat.mod_eq_of_lt (by omega)]
  have hne : ∀ word : BitVec 11, word.toNat ≠ biased → BitVec.ofNat 11 biased ≠ word := by
    rintro _ hword' rfl
    exact hword' hword
  have hzero : BitVec.ofNat 11 biased ≠ 0#11 := hne _ (by simp; omega)
  have hones : BitVec.ofNat 11 biased ≠ -1#11 := hne _ (by simp; omega)
  show unpack .binary64 (pack .binary64 (.finite .positive m e hpos)) = _
  rw [h.pack_eq hbiased (by omega)]
  unfold unpack
  simp only [unpackMantissa_packComponents, unpackExponent_packComponents, unpackSign_packComponents,
    Sign.ofBitVec_toBitVec, hzero, hones, if_false, h.toNat_append, hword]
  congr 1
  show (biased : Int) - (1023 + 52) = e
  omega

/-! ## Arithmetic -/

/-- A double that is the positive number `m * 2 ^ e`. -/
structure Value (a : Float) (m : Nat) (e : Int) : Prop where
  unpack_eq : ∃ hpos, a.toModel.unpack = .finite .positive m e hpos
  full : Full m

variable {a b : Float}

theorem exists_value_of_round {accuracy : Accuracy}
    (ha : a.toModel = Float.Model.pack (roundWithAccuracy .binary64 .positive m e accuracy))
    (hlog : m.log2 = 52 + k) (hlow : -1074 ≤ e + k) (hhigh : e + k < 900) :
    ∃ m' e', Value a m' e' ∧ (e + k ≤ e' ∧ e' ≤ e + k + 1) ∧
      ∀ q : ℚ, m * 2 ^ e ≤ q → q ≤ (m + 1) * 2 ^ e → Close (m' * 2 ^ e') q := by
  rcases close_roundWithAccuracy accuracy hlog hlow with
    ⟨m', e', hpos, heq, hfull, hrange, hclose⟩
  refine ⟨m', e', ⟨⟨hpos, ?_⟩, hfull⟩, hrange, hclose⟩
  rw [ha, heq, hfull.unpack_pack (by omega) (by omega)]

theorem exists_value_ofCount {count : Nat} (hpos : 0 < count) (hlt : count < 2 ^ 64) :
    ∃ m e, Value (ofCount count) m e ∧ (-52 ≤ e ∧ e ≤ 12) ∧ Close (m * 2 ^ e) count := by
  have hne : count ≠ 0 := Nat.ne_of_gt hpos
  have hlog : count.log2 < 64 := (Nat.log2_lt hne).mpr hlt
  -- Counts of fewer than 53 bits are first made longer.
  let shift := 52 - count.log2
  have htarget : (0 - Format.binary64.targetExponent (totalExponent count 0)).toNat = shift := by
    unfold Format.targetExponent totalExponent
    show (0 - max ((count.log2 : Int) + 1 + 0 - 53) (-1074)).toNat = 52 - count.log2
    omega
  have hround : (ofCount count).toModel =
      Float.Model.pack (roundWithAccuracy .binary64 .positive (count * 2 ^ shift) (0 - shift)
        .exact) := by
    have hword : ((UInt64.ofNat count).toNat : Int) = count := by
      rw [UInt64.toNat_ofNat_of_lt' hlt]
    have hcompare : compare (count : Int) 0 = .gt := compare_gt_iff_gt.mpr (by omega)
    show Float.Model.pack
      (UnpackedFloat.normalize .binary64 ((UInt64.ofNat count).toNat : Int) 0 .positive) = _
    rw [hword]
    simp only [UnpackedFloat.normalize, hcompare, UnpackedFloat.round, decreaseExponent,
      Int.toNat_natCast, htarget, Nat.shiftLeft_eq]
  have hlogShifted : (count * 2 ^ shift).log2 = 52 + (count.log2 - 52) := by
    have hsum : 52 + (count.log2 - 52) = count.log2 + shift := by omega
    rw [hsum, Nat.log2_eq_iff (by positivity), Nat.add_right_comm, Nat.pow_add, Nat.pow_add]
    exact ⟨Nat.mul_le_mul_right _ (Nat.log2_self_le hne),
      Nat.mul_lt_mul_of_pos_right Nat.lt_log2_self (Nat.two_pow_pos shift)⟩
  rcases exists_value_of_round hround hlogShifted (by omega) (by omega) with
    ⟨m, e, hvalue, hrange, hclose⟩
  refine ⟨m, e, hvalue, by omega, ?_⟩
  have hcount : ((count * 2 ^ shift : Nat) : ℚ) * 2 ^ (0 - shift : Int) = count := by
    rw [zero_sub, zpow_neg, zpow_natCast]
    push_cast
    field_simp
  have hunit : (0 : ℚ) < 2 ^ (0 - shift : Int) := by positivity
  exact hclose count hcount.le (by linarith)

theorem exists_value_mul (ha : Value a m e) (hb : Value b n f) (hlow : -900 ≤ e + f)
    (hhigh : e + f ≤ 800) :
    ∃ m' e', Value (a * b) m' e' ∧ (e + f + 52 ≤ e' ∧ e' ≤ e + f + 54) ∧
      Close (m' * 2 ^ e') (m * 2 ^ e * (n * 2 ^ f)) := by
  obtain ⟨hm, ha'⟩ := ha.unpack_eq
  obtain ⟨hn, hb'⟩ := hb.unpack_eq
  have hround : (a * b).toModel =
      Float.Model.pack (roundWithAccuracy .binary64 .positive (m * n) (e + f) .exact) := by
    show Float.Model.pack (UnpackedFloat.mul .binary64 a.toModel.unpack b.toModel.unpack) = _
    rw [ha', hb']
    rfl
  rcases ha.full.log2_mul hb.full with ⟨k, hk, hlog⟩
  rcases exists_value_of_round hround hlog (by omega) (by omega) with
    ⟨m', e', hvalue, hrange, hclose⟩
  refine ⟨m', e', hvalue, by omega, ?_⟩
  have hproduct : (m : ℚ) * 2 ^ e * (n * 2 ^ f) = (m * n : Nat) * 2 ^ (e + f) := by
    rw [zpow_add₀ (by norm_num)]
    push_cast
    ring
  have hunit : (0 : ℚ) < 2 ^ (e + f) := by positivity
  rw [hproduct]
  exact hclose _ le_rfl (by linarith)

theorem exists_value_div (ha : Value a m e) (hb : Value b n f) (hlow : -900 ≤ e - f)
    (hhigh : e - f ≤ 800) :
    ∃ m' e', Value (a / b) m' e' ∧ Close (m' * 2 ^ e') (m * 2 ^ e / (n * 2 ^ f)) := by
  obtain ⟨hm, ha'⟩ := ha.unpack_eq
  obtain ⟨hn, hb'⟩ := hb.unpack_eq
  have htarget : min (e - f)
      (Format.binary64.targetExponent (totalExponent m e - totalExponent n f)) = e - f - 53 := by
    unfold Format.targetExponent totalExponent
    rw [ha.full.log2_eq, hb.full.log2_eq]
    show min (e - f) (max (((52 : Nat) : Int) + 1 + e - ((52 : Nat) + 1 + f) - 53) (-1074)) = _
    omega
  have hshift : (e - f - (e - f - 53)).toNat = 53 := by omega
  have hround : (a / b).toModel =
      Float.Model.pack (roundWithAccuracy .binary64 .positive (m * 2 ^ 53 / n) (e - f - 53)
        (accuracyOfFraction (m * 2 ^ 53 % n) n)) := by
    show Float.Model.pack (UnpackedFloat.div .binary64 a.toModel.unpack b.toModel.unpack) = _
    rw [ha', hb']
    unfold UnpackedFloat.div divCore
    simp only [htarget, hshift, Nat.shiftLeft_eq]
    rfl
  rcases ha.full.log2_div hb.full with ⟨k, hk, hlog⟩
  rcases exists_value_of_round hround hlog (by omega) (by omega) with
    ⟨m', e', hvalue, -, hclose⟩
  refine ⟨m', e', hvalue, ?_⟩
  have hn' : (0 : ℚ) < n := by exact_mod_cast hn
  have hquotient : (m : ℚ) * 2 ^ e / (n * 2 ^ f) = (m * 2 ^ 53 : Nat) / n * 2 ^ (e - f - 53) := by
    rw [zpow_sub₀ (by norm_num), zpow_sub₀ (by norm_num)]
    push_cast
    field_simp
  have hunit : (0 : ℚ) ≤ 2 ^ (e - f - 53) := by positivity
  rw [hquotient]
  refine hclose _ (mul_le_mul_of_nonneg_right Nat.cast_div_le hunit)
    (mul_le_mul_of_nonneg_right ?_ hunit)
  rw [div_le_iff₀ hn']
  exact_mod_cast Nat.mul_comm n _ ▸ (Nat.lt_mul_div_succ (m * 2 ^ 53) hn).le

/-! ## Comparisons -/

theorem Value.isNaN_eq (ha : Value a m e) : a.isNaN = false := by
  obtain ⟨hm, ha'⟩ := ha.unpack_eq
  show a.toModel.unpack.isNaN = false
  rw [ha']
  rfl

theorem Value.place_eq (ha : Value a m e) : place a = toLex (1, toLex (e, (m : ℤ))) := by
  obtain ⟨hm, ha'⟩ := ha.unpack_eq
  show placeOf a.toModel.unpack = _
  rw [ha']
  rfl

theorem Value.beq_zero_eq (ha : Value a m e) : (a == 0) = false := by
  have hzero : (0 : Float).isNaN = false := by decide +kernel
  rw [Bool.eq_false_iff, ne_eq, beq_iff_place ha.isNaN_eq hzero, ha.place_eq]
  show ¬ toLex ((1 : ℤ), toLex (e, (m : ℤ))) = toLex (0, toLex (0, 0))
  simp

/-- Doubles compare as the numbers they are. -/
theorem Value.lt (ha : Value a m e) (hb : Value b n f) (h : (m : ℚ) * 2 ^ e < n * 2 ^ f) :
    a < b := by
  rw [lt_iff_place ha.isNaN_eq hb.isNaN_eq, ha.place_eq, hb.place_eq]
  by_contra hnot
  refine absurd h (not_lt.mpr ?_)
  rw [not_lt, Prod.Lex.toLex_le_toLex, Prod.Lex.toLex_le_toLex] at hnot
  rcases hnot with hlt | ⟨-, hlt | ⟨hexponent, hle⟩⟩
  · exact absurd hlt (lt_irrefl _)
  · have hn : (n : ℚ) ≤ 2 ^ 53 := by exact_mod_cast hb.full.2.le
    have hm : (2 : ℚ) ^ 52 ≤ m := by exact_mod_cast ha.full.1
    calc (n : ℚ) * 2 ^ f ≤ 2 ^ 53 * 2 ^ f := mul_le_mul_of_nonneg_right hn (by positivity)
      _ = 2 ^ 52 * 2 ^ (f + 1) := by
        rw [zpow_add_one₀ (by norm_num)]
        ring
      _ ≤ 2 ^ 52 * 2 ^ e :=
        mul_le_mul_of_nonneg_left (zpow_le_zpow_right₀ (by norm_num) hlt) (by positivity)
      _ ≤ m * 2 ^ e := mul_le_mul_of_nonneg_right hm (by positivity)
  · have hmantissa : (n : ℚ) ≤ m := by exact_mod_cast (show (n : ℤ) ≤ m from hle)
    subst hexponent
    exact mul_le_mul_of_nonneg_right hmantissa (by positivity)

end ApproxSet.Rate

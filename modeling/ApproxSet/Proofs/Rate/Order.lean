import ApproxSet.Rate
import Mathlib.Algebra.Order.Ring.Int
import Mathlib.Data.Prod.Lex
import Mathlib.Order.Compare

/-!
# The order of rates

Doubles that are numbers are ordered as the places they have among each other, which are compared one
component after the other. So numbers compare like any linear order, and what is no number compares
with nothing.
-/

namespace ApproxSet.Rate

open Float.Model (UnpackedFloat)

/-! ## Places -/

/-- The place of a double among the others: its sign and whether it is zero, finite or infinite, then
its exponent, then its mantissa. -/
def placeOf : UnpackedFloat → ℤ ×ₗ ℤ ×ₗ ℤ
  | .notANumber => toLex (0, toLex (0, 0))
  | .infinity .negative => toLex (-2, toLex (0, 0))
  | .finite .negative m e _ => toLex (-1, toLex (-e, -m))
  | .zero _ => toLex (0, toLex (0, 0))
  | .finite .positive m e _ => toLex (1, toLex (e, m))
  | .infinity .positive => toLex (2, toLex (0, 0))

theorem compare_natCast (m n : ℕ) : compare (m : ℤ) n = compare m n := by
  rw [← cmp_eq_compare, ← cmp_eq_compare]
  exact Nat.strictMono_cast.cmp_map_eq m n

theorem compare_neg (x y : ℤ) : compare (-x) (-y) = (compare x y).swap := by
  have hanti : StrictAnti fun z : ℤ => -z := fun _ _ h => Int.neg_lt_neg h
  rw [← cmp_eq_compare, ← cmp_eq_compare, cmp_swap]
  exact hanti.cmp_map_eq x y

theorem compare_eq_some {a b : UnpackedFloat} (ha : a.isNaN = false) (hb : b.isNaN = false) :
    a.compare b = some (compare (placeOf a) (placeOf b)) := by
  cases a with
  | notANumber => cases ha
  | infinity s =>
      cases b with
      | notANumber => cases hb
      | infinity t => cases s <;> cases t <;> rfl
      | zero t => cases s <;> rfl
      | finite t n f hn => cases s <;> cases t <;> rfl
  | zero s =>
      cases b with
      | notANumber => cases hb
      | infinity t => cases t <;> rfl
      | zero t => rfl
      | finite t n f hn => cases t <;> rfl
  | finite s m e hm =>
      cases b with
      | notANumber => cases hb
      | infinity t => cases s <;> cases t <;> rfl
      | zero t => cases s <;> rfl
      | finite t n f hn =>
          cases s <;> cases t
          · show some ((compare e f).then (compare m n)).swap =
              some ((compare (-e) (-f)).then (compare (-(m : ℤ)) (-n)))
            rw [compare_neg, compare_neg, compare_natCast, Ordering.swap_then]
          · rfl
          · rfl
          · show some ((compare e f).then (compare m n)) =
              some ((compare e f).then (compare (m : ℤ) n))
            rw [compare_natCast]

theorem isNaN_of_compare {a b : UnpackedFloat} {o : Ordering} (h : a.compare b = some o) :
    a.isNaN = false ∧ b.isNaN = false := by
  constructor
  · cases a with
    | notANumber => cases h
    | _ => rfl
  · cases b with
    | notANumber => cases a <;> cases h
    | _ => rfl

/-! ## Comparisons -/

variable {a b c : Float}

abbrev place (a : Float) : ℤ ×ₗ ℤ ×ₗ ℤ := placeOf a.toModel.unpack

theorem isNaN_of_le (h : a ≤ b) : a.isNaN = false ∧ b.isNaN = false := by
  have hle : (a.toModel.unpack.compare b.toModel.unpack).any Ordering.isLE = true :=
    of_decide_eq_true h
  cases hcompare : a.toModel.unpack.compare b.toModel.unpack with
  | none =>
      rw [hcompare] at hle
      cases hle
  | some o => exact isNaN_of_compare hcompare

theorem isNaN_of_lt (h : a < b) : a.isNaN = false ∧ b.isNaN = false :=
  isNaN_of_compare (eq_of_beq (of_decide_eq_true h))

theorem le_iff_place (ha : a.isNaN = false) (hb : b.isNaN = false) :
    a ≤ b ↔ place a ≤ place b := by
  have hle : a ≤ b ↔ (a.toModel.unpack.compare b.toModel.unpack).any Ordering.isLE = true :=
    decide_eq_true_iff
  rw [hle, compare_eq_some ha hb, Option.any_some, Ordering.isLE_iff_ne_gt]
  exact compare_le_iff_le

theorem lt_iff_place (ha : a.isNaN = false) (hb : b.isNaN = false) :
    a < b ↔ place a < place b := by
  have hlt : a < b ↔ (a.toModel.unpack.compare b.toModel.unpack == some .lt) = true :=
    decide_eq_true_iff
  rw [hlt, compare_eq_some ha hb, beq_iff_eq, Option.some_inj, compare_lt_iff_lt]

theorem beq_iff_place (ha : a.isNaN = false) (hb : b.isNaN = false) :
    (a == b) = true ↔ place a = place b := by
  have hbeq : (a == b) = (a.toModel.unpack.compare b.toModel.unpack == some .eq) := rfl
  rw [hbeq, compare_eq_some ha hb, beq_iff_eq, Option.some_inj, compare_eq_iff_eq]

protected theorem le_trans (hab : a ≤ b) (hbc : b ≤ c) : a ≤ c := by
  rcases isNaN_of_le hab with ⟨ha, hb⟩
  rcases isNaN_of_le hbc with ⟨-, hc⟩
  rw [le_iff_place ha hb] at hab
  rw [le_iff_place hb hc] at hbc
  rw [le_iff_place ha hc]
  exact hab.trans hbc

protected theorem not_le (ha : a.isNaN = false) (hb : b.isNaN = false) : ¬ a ≤ b ↔ b < a := by
  rw [le_iff_place ha hb, lt_iff_place hb ha, not_le]

protected theorem not_lt (ha : a.isNaN = false) (hb : b.isNaN = false) : ¬ a < b ↔ b ≤ a := by
  rw [lt_iff_place ha hb, le_iff_place hb ha, not_lt]

theorem not_le_of_lt (h : a < b) : ¬ b ≤ a := by
  rcases isNaN_of_lt h with ⟨ha, hb⟩
  exact (Rate.not_le hb ha).mpr h

protected theorem le_of_lt (h : a < b) : a ≤ b := by
  rcases isNaN_of_lt h with ⟨ha, hb⟩
  rw [lt_iff_place ha hb] at h
  rw [le_iff_place ha hb]
  exact h.le

protected theorem lt_of_le_of_lt (hab : a ≤ b) (hbc : b < c) : a < c := by
  rcases isNaN_of_le hab with ⟨ha, hb⟩
  rcases isNaN_of_lt hbc with ⟨-, hc⟩
  rw [le_iff_place ha hb] at hab
  rw [lt_iff_place hb hc] at hbc
  rw [lt_iff_place ha hc]
  exact hab.trans_lt hbc

/-- A rate that is at most another is below it unless they tie. -/
theorem lt_iff_of_le (h : a ≤ b) : a < b ↔ ¬ (a == b) = true := by
  rcases isNaN_of_le h with ⟨ha, hb⟩
  rw [le_iff_place ha hb] at h
  rw [lt_iff_place ha hb, beq_iff_place ha hb]
  exact lt_iff_le_and_ne.trans (and_iff_right h)

end ApproxSet.Rate

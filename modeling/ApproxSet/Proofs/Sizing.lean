import ApproxSet.Proofs.Codec
import ApproxSet.Proofs.Rate.Order
import ApproxSet.Proofs.Word
import ApproxSet.Sizing
import Mathlib.Order.Bounds.Defs

/-!
# What the searches for sizes return

Whatever the model of the rate, doubling and then halving ends at a number where the predicate holds,
and right below it the predicate fails. Nothing has to be known of the numbers before for a block filter
to meet its rate, or for a capacity to fit in 64 bits; if the predicate stays once it holds, the number
is the first.
-/

namespace ApproxSet

open Codec (bind_eq_ok_iff)

namespace Rate

/-- The model gives up on more than three hashes a bit, which are 24 a byte. Counts have 64 bits, and
sizes are those of block filters. -/
def Saturates (m : Model) : Prop :=
  ∀ count bytes, count < 2 ^ 64 → bytes ≤ Sizing.maxBlockFilterBytes → 24 * bytes < count →
    m count bytes = 1

theorem valid_of_validate {rate : Float} (h : validate rate = .ok ()) : Valid rate := by
  unfold validate at h
  split at h
  · assumption
  · cases h

end Rate

namespace Sizing

theorem firstPower?_eq_some {limit : Nat} {p : Nat → Bool} {bound : Nat}
    (h : firstPower? limit p = some bound) :
    ∃ k < limit, bound = 2 ^ k ∧ p bound = true ∧ ∀ j < k, p (2 ^ j) = false := by
  unfold firstPower? at h
  rcases Option.map_eq_some_iff.mp h with ⟨k, hk, rfl⟩
  rcases List.find?_range_eq_some.mp hk with ⟨hp, hlt, hbefore⟩
  refine ⟨k, List.mem_range.mp hlt, rfl, hp, fun j hj => ?_⟩
  simpa using hbefore j hj

theorem firstPower?_eq_none_iff {limit : Nat} {p : Nat → Bool} :
    firstPower? limit p = none ↔ ∀ k < limit, p (2 ^ k) = false := by
  unfold firstPower?
  rw [Option.map_eq_none_iff, List.find?_range_eq_none]
  simp

/-- Halving stays above `lo` and does not leave `hi`. -/
theorem bisect_bounds (p : Nat → Bool) {lo hi : Nat} (h : lo < hi) :
    lo < bisect p lo hi ∧ bisect p lo hi ≤ hi := by
  fun_induction bisect p lo hi with
  | case1 lo hi hgap mid hmid ih =>
      have hbounds := ih (by omega)
      exact ⟨hbounds.1, by omega⟩
  | case2 lo hi hgap mid hmid ih =>
      have hbounds := ih (by omega)
      exact ⟨by omega, hbounds.2⟩
  | case3 lo hi hgap => exact ⟨h, Nat.le_refl _⟩

theorem apply_bisect (p : Nat → Bool) {lo hi : Nat} (h : p hi = true) :
    p (bisect p lo hi) = true := by
  fun_induction bisect p lo hi with
  | case1 lo hi hgap mid hmid ih => exact ih hmid
  | case2 lo hi hgap mid hmid ih => exact ih h
  | case3 lo hi hgap => exact h

/-- Right below the end of halving `p` fails, unless halving ended right above `lo`. -/
theorem bisect_pred (p : Nat → Bool) {lo hi : Nat} (h : lo < hi) :
    bisect p lo hi = lo + 1 ∨ p (bisect p lo hi - 1) = false := by
  fun_induction bisect p lo hi with
  | case1 lo hi hgap mid hmid ih => exact ih (by omega)
  | case2 lo hi hgap mid hmid ih =>
      rcases ih (by omega) with hnext | hfails
      · right
        rw [hnext, Nat.add_sub_cancel]
        exact Bool.eq_false_iff.mpr hmid
      · exact Or.inr hfails
  | case3 lo hi hgap => exact Or.inl (by omega)

/-- If `p` fails at zero, halving ends where it fails last before it holds. -/
theorem exists_bisect_eq_succ {p : Nat → Bool} {hi : Nat} (hpos : 0 < hi) (hhi : p hi = true)
    (hzero : p 0 = false) :
    ∃ n, bisect p 0 hi = n + 1 ∧ n < hi ∧ p n = false ∧ p (n + 1) = true := by
  rcases bisect_bounds p hpos with ⟨hlo, hle⟩
  obtain ⟨n, hn⟩ := Nat.exists_eq_succ_of_ne_zero (Nat.ne_of_gt hlo)
  have hholds : p (bisect p 0 hi) = true := apply_bisect p hhi
  have hpred := bisect_pred p hpos
  rw [hn] at hle hholds hpred
  refine ⟨n, hn, hle, ?_, hholds⟩
  rcases hpred with hone | hfails
  · rw [Nat.succ.inj hone]
    exact hzero
  · exact hfails

/-- If `p` stays once it holds, halving ends at the first positive number where it does. -/
theorem isLeast_bisect {p : Nat → Bool} {hi : Nat} (hpos : 0 < hi) (hhi : p hi = true)
    (hstay : ∀ a b, a ≤ b → b ≤ hi → p a = true → p b = true) :
    IsLeast {n | 0 < n ∧ p n = true} (bisect p 0 hi) := by
  rcases bisect_bounds p hpos with ⟨hlo, hle⟩
  refine ⟨⟨hlo, apply_bisect p hhi⟩, fun n hn => Nat.le_of_not_lt fun hlt => ?_⟩
  rcases hn with ⟨hnpos, hn⟩
  rcases bisect_pred p hpos with hone | hfails
  · omega
  · rw [hstay n _ (by omega) (by omega) hn] at hfails
    cases hfails

theorem le_wholeBlocks (n : Nat) : n ≤ wholeBlocks n := by
  unfold wholeBlocks blockBytes
  omega

theorem wholeBlocks_le {n bytes : Nat} (hle : n ≤ bytes) (hblocks : blockBytes ∣ bytes) :
    wholeBlocks n ≤ bytes := by
  unfold wholeBlocks
  unfold blockBytes at hblocks ⊢
  omega

theorem blockBytes_dvd_wholeBlocks (n : Nat) : blockBytes ∣ wholeBlocks n :=
  Nat.dvd_mul_left _ _

theorem blockCapacityBy_lt {m : Rate.Model} {bytes : Nat} {rate : Float} {capacity : Nat}
    (h : blockCapacityBy m bytes rate = .ok (some capacity)) : capacity < 2 ^ 64 := by
  obtain ⟨_, -, hsearch⟩ := bind_eq_ok_iff.mp h
  obtain ⟨bound, hbound, hcapacity⟩ := Option.map_eq_some_iff.mp (Except.ok.inj hsearch)
  rcases firstPower?_eq_some hbound with ⟨k, hk, rfl, -⟩
  have hle := (bisect_bounds (fun n => !decide (m n bytes < rate)) (Nat.two_pow_pos k)).2
  have hpow := Word.two_pow_lt hk
  omega

/-- The size chosen for a number of hashes can be addressed, and the model allows as many in it or
even in a smaller one. -/
theorem bytesNeededBy_ok {m : Rate.Model} {count : Nat} {rate : Float} {bytes : Nat}
    (h : bytesNeededBy m count rate = .ok bytes) :
    bytes ≤ maxBlockFilterBytes ∧ Rate.Valid rate ∧ ∃ n ≤ bytes, m count n ≤ rate := by
  obtain ⟨_, hrate, hsearch⟩ := bind_eq_ok_iff.mp h
  simp only at hsearch
  split at hsearch
  · cases hsearch
  · rename_i bound hbound
    split at hsearch
    · cases hsearch
    · rename_i hfits
      cases hsearch
      rcases firstPower?_eq_some hbound with ⟨k, -, rfl, henough, -⟩
      let enough (n : Nat) : Bool := decide (m count n ≤ rate)
      have hfound : enough (bisect enough 0 (2 ^ k)) = true := apply_bisect enough henough
      exact ⟨Nat.not_lt.mp hfits, Rate.valid_of_validate hrate, _, le_wholeBlocks _,
        of_decide_eq_true hfound⟩

theorem count_le_of_bytesNeededBy {m : Rate.Model} (hm : Rate.Saturates m) {count : Nat}
    (hcount : count < 2 ^ 64) {rate : Float} {bytes : Nat}
    (h : bytesNeededBy m count rate = .ok bytes) :
    count ≤ 24 * maxBlockFilterBytes := by
  rcases bytesNeededBy_ok h with ⟨hfits, hrate, n, hn, hle⟩
  refine Nat.le_of_not_lt fun hover => ?_
  rw [hm count n hcount (by omega) (by omega)] at hle
  exact Rate.not_le_of_lt hrate.2 hle

end Sizing

end ApproxSet

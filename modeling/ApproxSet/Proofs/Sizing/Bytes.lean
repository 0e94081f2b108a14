import ApproxSet.Proofs.Rate.Models
import ApproxSet.Proofs.Sizing.Search

/-!
# How many bytes are needed

If more bytes never make the rate higher, the size chosen for a number of hashes is the least of whole
blocks at which the rate is low enough, and there is none exactly if the largest size is too small. The
doubling goes past the largest size before the search comes back below it, and all of it fits in 64-bit
words.
-/

namespace ApproxSet.Sizing

variable {m : Rate.Model} {count bytes : Nat} {rate : Float}

/-- Enough bytes are looked for; fewer than a block are not. -/
def bytesQuery (m : Rate.Model) (count : Nat) (rate : Float) : Query where
  holds bytes := decide (m count bytes ≤ rate)
  small := UInt64.ofNat blockBytes
  tooLarge bytes := decide (maxBlockFilterBytes < bytes)

theorem holds_bytesQuery_iff : (bytesQuery m count rate).holds bytes = true ↔ m count bytes ≤ rate :=
  decide_eq_true_iff

theorem bytesNeededBy_of_valid (m : Rate.Model) (count : Nat) (hrate : Rate.Valid rate) :
    bytesNeededBy m count rate =
      match firstPower? 38 (bytesQuery m count rate).holds with
      | none => .error (.filterSize (2 ^ 37))
      | some bound =>
        let bytes := wholeBlocks (bisect (bytesQuery m count rate).holds 0 bound)
        if bytes > maxBlockFilterBytes then .error (.filterSize bytes) else .ok bytes := by
  have hvalidate : Rate.validate rate = .ok () := if_pos hrate
  unfold bytesNeededBy
  rw [hvalidate]
  rfl

/-- The largest size lies between the last two powers of two that are tried. -/
theorem maxBlockFilterBytes_between :
    2 ^ 36 < maxBlockFilterBytes ∧ maxBlockFilterBytes < 2 ^ 37 := by
  decide

/-! ## In words -/

/-- Whole blocks for `n` bytes: one more if a part of a block is left. -/
def wholeBlocksWord (n : UInt64) : UInt64 :=
  (n / 32 + if n % 32 = 0 then 0 else 1) * 32

/-- The answer of a search for bytes that is over. -/
def bytesAnswer? : Search → Option (Except FilterError Nat)
  | .settled _ hi =>
    let bytes := (wholeBlocksWord hi).toNat
    some (if bytes > maxBlockFilterBytes then .error (.filterSize bytes) else .ok bytes)
  | .refused c => some (.error (.filterSize c.toNat))
  | _ => none

theorem toNat_wholeBlocksWord {n : UInt64} (h : n.toNat ≤ 2 ^ 37) :
    (wholeBlocksWord n).toNat = wholeBlocks n.toNat := by
  have hblock : (32 : UInt64).toNat = 32 := rfl
  have hrest : n % 32 = 0 ↔ n.toNat % 32 = 0 := by
    rw [← UInt64.toNat_inj, UInt64.toNat_mod, hblock, UInt64.toNat_zero]
  have hpart : (if n % 32 = 0 then 0 else 1 : UInt64).toNat =
      if n.toNat % 32 = 0 then 0 else 1 := by
    by_cases hzero : n.toNat % 32 = 0
    · rw [if_pos (hrest.mpr hzero), if_pos hzero, UInt64.toNat_zero]
    · rw [if_neg fun h => hzero (hrest.mp h), if_neg hzero, UInt64.toNat_one]
  unfold wholeBlocksWord wholeBlocks blockBytes
  rw [UInt64.toNat_mul, UInt64.toNat_add, UInt64.toNat_div, hpart, hblock]
  split <;> omega

theorem wholeBlocks_of_le {n : Nat} (hpos : 0 < n) (hle : n ≤ blockBytes) :
    wholeBlocks n = blockBytes := by
  unfold wholeBlocks
  unfold blockBytes at hle ⊢
  omega

/-- The doubling is given up at `2 ^ 37` at the latest. -/
theorem stopsAt_bytesQuery (m : Rate.Model) (count : Nat) (rate : Float) :
    (bytesQuery m count rate).StopsAt 37 :=
  ⟨by decide, Or.inr (decide_eq_true maxBlockFilterBytes_between.2)⟩

theorem passes_bytesQuery {k : Nat} (hk : k ≤ 37)
    (h : ∀ j < k, (bytesQuery m count rate).holds (2 ^ j) = false) :
    (bytesQuery m count rate).Passes k := by
  intro j hj
  refine ⟨h j hj, decide_eq_false ?_⟩
  have hpow : 2 ^ j ≤ 2 ^ 36 := Nat.pow_le_pow_right Nat.two_pos (by omega)
  have hmax := maxBlockFilterBytes_between.1
  omega

/-- Where the doubling ends, rounding up in words gives the blocks for the number that is found. A
number within the first block need not be looked for. -/
theorem exists_blocks_after {k : Nat} (hk : k < 38)
    (hbefore : ∀ j < k, (bytesQuery m count rate).holds (2 ^ j) = false)
    (hholds : (bytesQuery m count rate).holds (2 ^ k) = true) :
    ∃ turns lo hi, (bytesQuery m count rate).after turns = .settled lo hi ∧
      (wholeBlocksWord hi).toNat =
        wholeBlocks (bisect (bytesQuery m count rate).holds 0 (2 ^ k)) := by
  obtain ⟨turns, lo, hi, hturns, hends⟩ := Query.exists_after_settled (by omega)
    (passes_bytesQuery (Nat.le_of_lt_succ hk) hbefore) hholds
  have hpow : 2 ^ k ≤ 2 ^ 37 := Nat.pow_le_pow_right Nat.two_pos (by omega)
  have hfound := bisect_bounds (bytesQuery m count rate).holds (Nat.two_pow_pos k)
  have hsmall : (bytesQuery m count rate).small.toNat = blockBytes := rfl
  refine ⟨turns, lo, hi, hturns, ?_⟩
  rw [hsmall] at hends
  by_cases hle : 2 ^ k ≤ blockBytes
  · rw [if_pos hle] at hends
    rw [toNat_wholeBlocksWord (hends.2 ▸ hpow), hends.2,
      wholeBlocks_of_le (Nat.two_pow_pos k) hle,
      wholeBlocks_of_le hfound.1 (Nat.le_trans hfound.2 hle)]
  · rw [if_neg hle] at hends
    rw [toNat_wholeBlocksWord (hends.1 ▸ Nat.le_trans hfound.2 hpow), hends.1]

/-- The search in words ends with the size that is chosen, or with the same failure. -/
theorem exists_bytesAnswer (m : Rate.Model) (count : Nat) (hrate : Rate.Valid rate) :
    ∃ turns, bytesAnswer? ((bytesQuery m count rate).after turns) =
      some (bytesNeededBy m count rate) := by
  rw [bytesNeededBy_of_valid m count hrate]
  cases hbound : firstPower? 38 (bytesQuery m count rate).holds with
  | none =>
      have hnone := firstPower?_eq_none_iff.mp hbound
      have hrefused := Query.after_refused (by decide)
        (passes_bytesQuery (Nat.le_refl 37) fun j hj => hnone j (by omega)) (hnone 37 (by decide))
        (decide_eq_true maxBlockFilterBytes_between.2)
      refine ⟨38, ?_⟩
      rw [hrefused]
      rfl
  | some bound =>
      rcases firstPower?_eq_some hbound with ⟨k, hk, rfl, hholds, hbefore⟩
      obtain ⟨turns, lo, hi, hturns, hblocks⟩ := exists_blocks_after hk hbefore hholds
      refine ⟨turns, ?_⟩
      rw [hturns, bytesAnswer?, hblocks]

/-! ## The least size -/

theorem isLeast_wholeBlocks {p : Nat → Prop} {n : Nat} (h : IsLeast {n | 0 < n ∧ p n} n)
    (hblocks : p (wholeBlocks n)) :
    IsLeast {bytes | 0 < bytes ∧ blockBytes ∣ bytes ∧ p bytes} (wholeBlocks n) := by
  have hpos : 0 < n := h.1.1
  refine ⟨⟨Nat.lt_of_lt_of_le hpos (le_wholeBlocks n), blockBytes_dvd_wholeBlocks n, hblocks⟩, ?_⟩
  intro bytes hbytes
  rcases hbytes with ⟨hbytespos, hdvd, hp⟩
  exact wholeBlocks_le (h.2 ⟨hbytespos, hp⟩) hdvd

theorem isLeast_bytes (hm : Rate.FallsWithBytes m) (hcount : count < 2 ^ 64) {bound : Nat}
    (hpos : 0 < bound) (hle : bound ≤ 2 ^ 37)
    (hholds : (bytesQuery m count rate).holds bound = true) :
    wholeBlocks (bisect (bytesQuery m count rate).holds 0 bound) ≤ 2 ^ 37 ∧
      IsLeast {bytes | 0 < bytes ∧ blockBytes ∣ bytes ∧ m count bytes ≤ rate}
        (wholeBlocks (bisect (bytesQuery m count rate).holds 0 bound)) := by
  have hleast := isLeast_bisect hpos hholds fun a b hab hb ha =>
    holds_bytesQuery_iff.mpr (hm.le_of_le hcount hab (by omega) (holds_bytesQuery_iff.mp ha))
  simp only [holds_bytesQuery_iff] at hleast
  have hbisect := (bisect_bounds (bytesQuery m count rate).holds hpos).2
  have hwhole := wholeBlocks_le (Nat.le_trans hbisect hle) (by decide : blockBytes ∣ 2 ^ 37)
  exact ⟨hwhole, isLeast_wholeBlocks hleast
    (hm.le_of_le hcount (le_wholeBlocks _) (by omega) hleast.1.2)⟩

theorem not_le_of_firstPower?_eq_none (hm : Rate.FallsWithBytes m) (hcount : count < 2 ^ 64)
    (h : firstPower? 38 (bytesQuery m count rate).holds = none) :
    ¬ m count maxBlockFilterBytes ≤ rate := by
  intro hle
  have hlast := firstPower?_eq_none_iff.mp h 37 (by decide)
  have hholds := holds_bytesQuery_iff.mpr
    (hm.le_of_le hcount (Nat.le_of_lt maxBlockFilterBytes_between.2) (by decide) hle)
  rw [hlast] at hholds
  cases hholds

/-- If the least size is above the largest one, it is `2 ^ 37`: no whole blocks lie in between. -/
theorem eq_of_isLeast_of_lt (hle : bytes ≤ 2 ^ 37)
    (hleast : IsLeast {bytes | 0 < bytes ∧ blockBytes ∣ bytes ∧ m count bytes ≤ rate} bytes)
    (h : maxBlockFilterBytes < bytes) :
    ¬ m count maxBlockFilterBytes ≤ rate ∧ bytes = 2 ^ 37 := by
  have hdvd := hleast.1.2.1
  refine ⟨fun hlarge => ?_, ?_⟩
  · have hmax : blockBytes ∣ maxBlockFilterBytes := Nat.dvd_mul_left _ _
    exact Nat.not_le_of_lt h (hleast.2 ⟨by decide, hmax, hlarge⟩)
  · unfold maxBlockFilterBytes blockBytes at h
    unfold blockBytes at hdvd
    omega

/-- No turn of the search wraps around, and it ends with what is returned: the least size of whole
blocks at which the rate is low enough, if the largest size is one. -/
theorem bytesNeededBy_isLeast (hm : Rate.FallsWithBytes m) (hcount : count < 2 ^ 64)
    (hrate : Rate.Valid rate) :
    let q := bytesQuery m count rate
    (∀ turns, q.Exact (q.after turns)) ∧
      (∃ turns, bytesAnswer? (q.after turns) = some (bytesNeededBy m count rate)) ∧
      match bytesNeededBy m count rate with
      | .ok bytes => m count maxBlockFilterBytes ≤ rate ∧
          blockBytes ≤ bytes ∧ bytes ≤ maxBlockFilterBytes ∧
          IsLeast {bytes | 0 < bytes ∧ blockBytes ∣ bytes ∧ m count bytes ≤ rate} bytes
      | .error e => ¬ m count maxBlockFilterBytes ≤ rate ∧ e = .filterSize (2 ^ 37) := by
  intro q
  have hstops := stopsAt_bytesQuery m count rate
  refine ⟨fun turns => hstops.exact (hstops.within_after turns),
    exists_bytesAnswer m count hrate, ?_⟩
  rw [bytesNeededBy_of_valid m count hrate]
  cases hbound : firstPower? 38 (bytesQuery m count rate).holds with
  | none => exact ⟨not_le_of_firstPower?_eq_none hm hcount hbound, rfl⟩
  | some bound =>
      rcases firstPower?_eq_some hbound with ⟨k, hk, rfl, hholds, -⟩
      have hpow : 2 ^ k ≤ 2 ^ 37 := Nat.pow_le_pow_right Nat.two_pos (by omega)
      rcases isLeast_bytes hm hcount (Nat.two_pow_pos k) hpow hholds with ⟨hwhole, hleast⟩
      dsimp only
      generalize wholeBlocks (bisect (bytesQuery m count rate).holds 0 (2 ^ k)) = bytes
        at hwhole hleast ⊢
      by_cases htoo : bytes > maxBlockFilterBytes
      · rcases eq_of_isLeast_of_lt hwhole hleast htoo with ⟨hlarge, heq⟩
        rw [if_pos htoo]
        exact ⟨hlarge, congrArg FilterError.filterSize heq⟩
      · rw [if_neg htoo]
        have hfits : bytes ≤ maxBlockFilterBytes := Nat.le_of_not_lt htoo
        rcases hleast.1 with ⟨hpos, hdvd, hle⟩
        exact ⟨hm.le_of_le hcount hfits (by decide) hle, Nat.le_of_dvd hpos hdvd, hfits, hleast⟩

theorem eq_ok_of_toOption {ε α : Type} {x : Except ε α} {y : α} (h : x.toOption = some y) :
    x = .ok y := by
  cases x with
  | error e => cases h
  | ok a =>
      cases h
      rfl

/-- The bytes for a hundred thousand hashes are rounded up to whole blocks; for `2 ^ 42` hashes the
largest size is too small. -/
theorem bytesNeededBy_isLeast_of_plateau :
    Rate.FallsWithBytes Rate.plateau ∧ 100000 < 2 ^ 64 ∧ 2 ^ 42 < 2 ^ 64 ∧ Rate.Valid 0.5 ∧
      bytesNeededBy Rate.plateau 100000 0.5 = .ok 4192 ∧
      IsLeast {bytes | 0 < bytes ∧ blockBytes ∣ bytes ∧ Rate.plateau 100000 bytes ≤ 0.5} 4192 ∧
      bytesNeededBy Rate.plateau (2 ^ 42) 0.5 = .error (.filterSize (2 ^ 37)) := by
  have hm := Rate.fallsWithBytes_plateau
  have hcount : 100000 < 2 ^ 64 := by decide
  have hlarge : 2 ^ 42 < 2 ^ 64 := by decide
  have hrate : Rate.Valid 0.5 := by decide +kernel
  have hsize : bytesNeededBy Rate.plateau 100000 0.5 = .ok 4192 :=
    eq_ok_of_toOption (by decide +kernel)
  have hover : ¬ Rate.plateau (2 ^ 42) maxBlockFilterBytes ≤ 0.5 := by decide +kernel
  rcases bytesNeededBy_isLeast hm hcount hrate with ⟨-, -, hfound⟩
  rcases bytesNeededBy_isLeast hm hlarge hrate with ⟨-, -, hnone⟩
  rw [hsize] at hfound
  refine ⟨hm, hcount, hlarge, hrate, hsize, hfound.2.2.2, ?_⟩
  cases hbytes : bytesNeededBy Rate.plateau (2 ^ 42) 0.5 with
  | error e =>
      rw [hbytes] at hnone
      exact congrArg Except.error hnone.2
  | ok bytes =>
      rw [hbytes] at hnone
      exact absurd hnone.1 hover

end ApproxSet.Sizing

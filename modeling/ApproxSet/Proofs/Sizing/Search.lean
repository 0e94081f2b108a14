import ApproxSet.Proofs.Sizing
import Mathlib.Logic.Function.Iterate

/-!
# Searches in 64 bits

A search turn by turn, in 64-bit words that wrap around. If some power of two that fits in a word ends
the doubling, no turn wraps and the search ends where the search in numbers does. If none does, the
candidate becomes zero in the end and stays so.
-/

namespace ApproxSet.Sizing

/-- Where a search stands: a candidate to be tried, or a gap with the number looked for above its lower
end and not above its upper one. -/
inductive Search where
  | doubling (candidate : UInt64)
  | halving (lo hi : UInt64)
  | settled (lo hi : UInt64)
  /-- The candidate is not enough, and too large to be doubled. -/
  | refused (candidate : UInt64)
  deriving DecidableEq

/-- What a search looks for, and when it gives up doubling. -/
structure Query where
  holds : Nat → Bool
  /-- Up to here the first candidate that holds is not searched below. -/
  small : UInt64
  tooLarge : Nat → Bool

namespace Query

variable {q : Query} {stop : Nat} {s : Search} {lo hi : UInt64}

def turn (q : Query) : Search → Search
  | .doubling c =>
    if q.holds c.toNat then
      if c ≤ q.small then .settled 0 c else .halving 0 c
    else if q.tooLarge c.toNat then .refused c
    else .doubling (c * 2)
  | .halving lo hi =>
    if lo + 1 < hi then
      let mid := lo + (hi - lo) / 2
      if q.holds mid.toNat then .halving lo mid else .halving mid hi
    else .settled lo hi
  | s => s

/-- The search after some turns. -/
def after (q : Query) (turns : Nat) : Search := q.turn^[turns] (.doubling 1)

theorem after_succ (q : Query) (turns : Nat) : q.after (turns + 1) = q.turn (q.after turns) :=
  Function.iterate_succ_apply' _ _ _

theorem after_add (q : Query) (turns more : Nat) :
    q.after (turns + more) = q.turn^[more] (q.after turns) := by
  rw [after, Nat.add_comm, Function.iterate_add_apply, after]

theorem turn_doubling (q : Query) (c : UInt64) :
    q.turn (.doubling c) =
      if q.holds c.toNat then if c ≤ q.small then .settled 0 c else .halving 0 c
      else if q.tooLarge c.toNat then .refused c
      else .doubling (c * 2) := rfl

theorem turn_halving (h : lo + 1 < hi) :
    q.turn (.halving lo hi) =
      if q.holds (lo + (hi - lo) / 2).toNat then .halving lo (lo + (hi - lo) / 2)
      else .halving (lo + (hi - lo) / 2) hi := if_pos h

theorem turn_halving_of_not_lt (h : ¬ lo + 1 < hi) : q.turn (.halving lo hi) = .settled lo hi :=
  if_neg h

/-! ## No wrapping -/

/-- What the next turn computes is what it is in numbers. -/
def Exact (q : Query) : Search → Prop
  | .doubling c => q.holds c.toNat = false → q.tooLarge c.toNat = false → (c * 2).toNat = c.toNat * 2
  | .halving lo hi =>
    (lo + 1).toNat = lo.toNat + 1 ∧ (hi - lo).toNat + lo.toNat = hi.toNat ∧
      (lo + (hi - lo) / 2).toNat = lo.toNat + (hi - lo).toNat / 2
  | _ => True

theorem toNat_add_one (h : lo < hi) : (lo + 1).toNat = lo.toNat + 1 := by
  have hlt := UInt64.lt_iff_toNat_lt.mp h
  have hbound := hi.toNat_lt
  rw [UInt64.toNat_add, UInt64.toNat_one]
  omega

theorem toNat_middle (h : lo < hi) :
    (lo + (hi - lo) / 2).toNat = lo.toNat + (hi.toNat - lo.toNat) / 2 := by
  have hlt := UInt64.lt_iff_toNat_lt.mp h
  have hbound := hi.toNat_lt
  have hgap : (hi - lo).toNat = hi.toNat - lo.toNat :=
    UInt64.toNat_sub_of_le _ _ (UInt64.le_of_lt h)
  have htwo : (2 : UInt64).toNat = 2 := rfl
  rw [UInt64.toNat_add, UInt64.toNat_div, hgap, htwo]
  omega

theorem toNat_power {k : Nat} (hk : k < 64) : (UInt64.ofNat (2 ^ k)).toNat = 2 ^ k := by
  rw [UInt64.toNat_ofNat', Nat.mod_eq_of_lt (Word.two_pow_lt hk)]

theorem toNat_double {c : UInt64} {k : Nat} (hk : k < 63) (hc : c.toNat = 2 ^ k) :
    (c * 2).toNat = 2 ^ (k + 1) := by
  have hlt : 2 ^ (k + 1) < 2 ^ 64 := Word.two_pow_lt (by omega)
  have htwo : (2 : UInt64).toNat = 2 := rfl
  rw [UInt64.toNat_mul, hc, htwo, ← Nat.pow_succ, Nat.mod_eq_of_lt hlt]

/-- Doubling goes no further than to `2 ^ stop`, which a word holds. -/
structure StopsAt (q : Query) (stop : Nat) : Prop where
  lt : stop < 64
  stops : q.holds (2 ^ stop) = true ∨ q.tooLarge (2 ^ stop) = true

/-- Candidates are powers of two up to `2 ^ stop`, and gaps are not empty. -/
def Within (stop : Nat) : Search → Prop
  | .doubling c => ∃ k ≤ stop, c.toNat = 2 ^ k
  | .halving lo hi => lo < hi
  | _ => True

theorem StopsAt.lt_of_double (h : q.StopsAt stop) {c : UInt64} {k : Nat} (hk : k ≤ stop)
    (hc : c.toNat = 2 ^ k) (hfails : q.holds c.toNat = false) (hfits : q.tooLarge c.toNat = false) :
    k < stop := by
  refine Nat.lt_of_le_of_ne hk fun heq => ?_
  rw [hc, heq] at hfails hfits
  rcases h.stops with hholds | htoo
  · rw [hholds] at hfails
    cases hfails
  · rw [htoo] at hfits
    cases hfits

theorem StopsAt.exact (h : q.StopsAt stop) (hs : Within stop s) : q.Exact s := by
  cases s with
  | doubling c =>
      rcases hs with ⟨k, hk, hc⟩
      intro hfails hfits
      have hlt := h.lt_of_double hk hc hfails hfits
      have hstop := h.lt
      rw [toNat_double (by omega) hc, hc, Nat.pow_succ]
  | halving lo hi =>
      have hlt := UInt64.lt_iff_toNat_lt.mp hs
      have hgap : (hi - lo).toNat = hi.toNat - lo.toNat :=
        UInt64.toNat_sub_of_le _ _ (UInt64.le_of_lt hs)
      refine ⟨toNat_add_one hs, ?_, ?_⟩
      · omega
      · rw [toNat_middle hs, hgap]
  | settled lo hi => trivial
  | refused c => trivial

theorem lt_of_turn_halving (h : lo < hi) (hgap : lo + 1 < hi) :
    lo < lo + (hi - lo) / 2 ∧ lo + (hi - lo) / 2 < hi := by
  have hmiddle := toNat_middle h
  rw [UInt64.lt_iff_toNat_lt, toNat_add_one h] at hgap
  rw [UInt64.lt_iff_toNat_lt, UInt64.lt_iff_toNat_lt, hmiddle]
  omega

theorem StopsAt.within_turn (h : q.StopsAt stop) (hs : Within stop s) :
    Within stop (q.turn s) := by
  cases s with
  | doubling c =>
      rcases hs with ⟨k, hk, hc⟩
      have hstop := h.lt
      rw [turn_doubling]
      by_cases hholds : q.holds c.toNat = true
      · rw [if_pos hholds]
        split
        · trivial
        · show 0 < c
          rw [UInt64.lt_iff_toNat_lt, hc]
          exact Nat.two_pow_pos k
      · rw [if_neg hholds]
        by_cases htoo : q.tooLarge c.toNat = true
        · rw [if_pos htoo]
          trivial
        · rw [if_neg htoo]
          have hlt := h.lt_of_double hk hc (Bool.eq_false_iff.mpr hholds)
            (Bool.eq_false_iff.mpr htoo)
          exact ⟨k + 1, hlt, toNat_double (by omega) hc⟩
  | halving lo hi =>
      by_cases hgap : lo + 1 < hi
      · rcases lt_of_turn_halving hs hgap with ⟨hlo, hhi⟩
        rw [turn_halving hgap]
        split
        · exact hlo
        · exact hhi
      · rw [turn_halving_of_not_lt hgap]
        trivial
  | settled lo hi => trivial
  | refused c => trivial

theorem StopsAt.within_after (h : q.StopsAt stop) (turns : Nat) :
    Within stop (q.after turns) := by
  induction turns with
  | zero => exact ⟨0, Nat.zero_le stop, rfl⟩
  | succ turns ih =>
      rw [after_succ]
      exact h.within_turn ih

/-! ## Where a search ends -/

/-- Halving a gap ends, and as in numbers. -/
theorem exists_settled_of_halving (q : Query) {lo hi : UInt64} (h : lo < hi) :
    ∃ turns lo' hi', q.turn^[turns] (.halving lo hi) = .settled lo' hi' ∧
      hi'.toNat = bisect q.holds lo.toNat hi.toNat ∧ lo'.toNat + 1 = hi'.toNat := by
  have hlt := UInt64.lt_iff_toNat_lt.mp h
  have hgap : lo + 1 < hi ↔ lo.toNat + 1 < hi.toNat := by
    rw [UInt64.lt_iff_toNat_lt, toNat_add_one h]
  rw [bisect]
  by_cases hmore : lo + 1 < hi
  · rcases lt_of_turn_halving h hmore with ⟨hlo, hhi⟩
    have hmiddle := toNat_middle h
    have hlo' := UInt64.lt_iff_toNat_lt.mp hlo
    have hhi' := UInt64.lt_iff_toNat_lt.mp hhi
    rw [if_pos (hgap.mp hmore)]
    dsimp only
    rw [← hmiddle]
    by_cases hholds : q.holds (lo + (hi - lo) / 2).toNat = true
    · rw [if_pos hholds]
      obtain ⟨turns, lo', hi', hturns, hends⟩ := exists_settled_of_halving q hlo
      refine ⟨turns + 1, lo', hi', ?_, hends⟩
      rw [Function.iterate_succ_apply, turn_halving hmore, if_pos hholds, hturns]
    · rw [if_neg hholds]
      obtain ⟨turns, lo', hi', hturns, hends⟩ := exists_settled_of_halving q hhi
      refine ⟨turns + 1, lo', hi', ?_, hends⟩
      rw [Function.iterate_succ_apply, turn_halving hmore, if_neg hholds, hturns]
  · have hclosed : ¬ lo.toNat + 1 < hi.toNat := fun hnat => hmore (hgap.mpr hnat)
    rw [if_neg hclosed]
    refine ⟨1, lo, hi, ?_, rfl, by omega⟩
    rw [Function.iterate_one, turn_halving_of_not_lt hmore]
termination_by hi.toNat - lo.toNat
decreasing_by all_goals omega

/-- The powers of two below `2 ^ k` do not end the doubling. -/
def Passes (q : Query) (k : Nat) : Prop :=
  ∀ j < k, q.holds (2 ^ j) = false ∧ q.tooLarge (2 ^ j) = false

theorem after_of_passes {k : Nat} (hk : k < 64) (h : q.Passes k) :
    q.after k = .doubling (UInt64.ofNat (2 ^ k)) := by
  induction k with
  | zero => rfl
  | succ k ih =>
      rcases h k (Nat.lt_succ_self k) with ⟨hfails, hfits⟩
      have hword := toNat_power (Nat.lt_of_succ_lt hk)
      have hdouble : UInt64.ofNat (2 ^ k) * 2 = UInt64.ofNat (2 ^ (k + 1)) := by
        apply UInt64.toNat_inj.mp
        rw [toNat_double (by omega) hword, toNat_power hk]
      rw [after_succ, ih (by omega) fun j hj => h j (by omega), turn_doubling, hword, hfails, hfits, hdouble]
      rfl

theorem exists_after_settled {k : Nat} (hk : k < 64) (h : q.Passes k)
    (hholds : q.holds (2 ^ k) = true) :
    ∃ turns lo hi, q.after turns = .settled lo hi ∧
      if 2 ^ k ≤ q.small.toNat then lo = 0 ∧ hi.toNat = 2 ^ k
      else hi.toNat = bisect q.holds 0 (2 ^ k) ∧ lo.toNat + 1 = hi.toNat := by
  have hword := toNat_power hk
  have hafter := after_of_passes hk h
  have hsmall : UInt64.ofNat (2 ^ k) ≤ q.small ↔ 2 ^ k ≤ q.small.toNat := by
    rw [UInt64.le_iff_toNat_le, hword]
  by_cases hle : 2 ^ k ≤ q.small.toNat
  · refine ⟨k + 1, 0, UInt64.ofNat (2 ^ k), ?_, ?_⟩
    · rw [after_succ, hafter, turn_doubling, hword, if_pos hholds, if_pos (hsmall.mpr hle)]
    · rw [if_pos hle]
      exact ⟨rfl, hword⟩
  · have hpos : (0 : UInt64) < UInt64.ofNat (2 ^ k) := by
      rw [UInt64.lt_iff_toNat_lt, hword]
      exact Nat.two_pow_pos k
    obtain ⟨turns, lo, hi, hturns, hhi, hlo⟩ := exists_settled_of_halving q hpos
    refine ⟨k + 1 + turns, lo, hi, ?_, ?_⟩
    · rw [after_add, after_succ, hafter, turn_doubling, hword, if_pos hholds,
        if_neg fun hle' => hle (hsmall.mp hle'), hturns]
    · rw [if_neg hle]
      rw [hword] at hhi
      exact ⟨hhi, hlo⟩

theorem after_refused {k : Nat} (hk : k < 64) (h : q.Passes k) (hfails : q.holds (2 ^ k) = false)
    (htoo : q.tooLarge (2 ^ k) = true) :
    q.after (k + 1) = .refused (UInt64.ofNat (2 ^ k)) := by
  rw [after_succ, after_of_passes hk h, turn_doubling, toNat_power hk, hfails, htoo]
  rfl

/-- If no power of two in a word ends the doubling, the candidate wraps around to zero. -/
theorem after_of_never (h : q.Passes 64) (hzero : q.holds 0 = false) (hfits : q.tooLarge 0 = false)
    {turns : Nat} (hturns : 64 ≤ turns) : q.after turns = .doubling 0 := by
  have hstay : q.turn (.doubling 0) = .doubling 0 := by
    rw [turn_doubling, UInt64.toNat_zero, hzero, hfits]
    rfl
  have hlast : q.after 63 = .doubling (UInt64.ofNat (2 ^ 63)) :=
    after_of_passes (by decide) fun j hj => h j (by omega)
  induction hturns with
  | refl =>
      rcases h 63 (by decide) with ⟨hfails63, hfits63⟩
      rw [after_succ, hlast, turn_doubling, toNat_power (by decide), hfails63, hfits63]
      rfl
  | step _ ih => rw [after_succ, ih, hstay]

end Query

end ApproxSet.Sizing

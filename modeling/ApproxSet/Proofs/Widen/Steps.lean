import ApproxSet.Proofs.Widen
import Mathlib.Data.List.Basic

/-!
# Widening in steps

Sides grow by one doubling at a time, a union takes an entry over many at once. As words, the parts of
a stem are one word while the tail lasts, and numbers in equal steps from there on once it has run
out. Both descriptions depend on where the stem begins in the word and on what is left of its tail,
and neither is changed by a stop on the way: the route does not matter for the parts, nor for their
order.
-/

namespace ApproxSet

/-- Counting to `m * n` in `m` rows of `n`. -/
theorem map_range_mul {α : Type} (f : Nat → α) (m n : Nat) :
    (List.range (m * n)).map f =
      (List.range m).flatMap fun i => (List.range n).map fun j => f (i * n + j) := by
  induction m with
  | zero => simp
  | succ m ih =>
      rw [Nat.succ_mul, List.range_add, List.map_append, ih, List.range_succ, List.flatMap_append]
      simp

namespace Stem

variable {old mid new : Nat}

/-- Prefix and tail bits as a word, from its top bit on. -/
def leftAligned (logSide : Nat) (s : Stem) : Nat :=
  s.value logSide * 2 ^ (54 - logSide - s.tail.length)

/-- While the tail lasts, the one part begins where the stem begins. -/
theorem widen_of_le_length (hon : old ≤ new) (hn : new ≤ 48) {s : Stem} (hs : s.Proper old)
    (hlen : new - old ≤ s.tail.length) :
    s.widen old new = [⟨UInt64.ofNat (s.leftAligned old), s.tail.drop (new - old)⟩] := by
  unfold leftAligned
  rw [← toNat_or_payload (Nat.le_trans hon hn) hs, UInt64.ofNat_toNat]
  exact if_pos hlen

/-- From the end of the tail on, the parts begin at equal distances. -/
theorem widen_of_length_le (hon : old ≤ new) (hn : new ≤ 48) {s : Stem} (hs : s.Proper old)
    (hlen : s.tail.length ≤ new - old) :
    s.widen old new = (List.range (2 ^ (new - old - s.tail.length))).map fun i =>
      ⟨UInt64.ofNat (s.leftAligned old + i * 2 ^ (54 - new)), Tail.empty⟩ := by
  rcases Nat.eq_or_lt_of_le hlen with heq | hlt
  · rw [widen_of_le_length hon hn hs (Nat.le_of_eq heq.symm), ← heq, Tail.drop_length hs.ended,
      Nat.sub_self]
    simp
  · unfold widen
    rw [if_neg (Nat.not_le.mpr hlt)]
    apply List.map_congr_left
    intro i hi
    unfold leftAligned
    rw [← toNat_or_missing hon hn hs hlt (List.mem_range.mp hi), UInt64.ofNat_toNat]

/-- A stem on a side between, that begins where `s` begins and has what is left of its tail, has the
parts that `s` has. -/
theorem widen_eq_of_leftAligned (hom : old ≤ mid) (hmn : mid ≤ new) (hn : new ≤ 48) {s t : Stem}
    (hs : s.Proper old) (ht : t.Proper mid) (hlen : mid - old ≤ s.tail.length)
    (hword : t.leftAligned mid = s.leftAligned old) (htail : t.tail = s.tail.drop (mid - old)) :
    t.widen mid new = s.widen old new := by
  have hon := Nat.le_trans hom hmn
  have htlen : t.tail.length = s.tail.length - (mid - old) := by
    rw [htail, Tail.length_drop hs.ended hlen]
  rcases Nat.le_total (new - old) s.tail.length with hle | hge
  · have hdrop : t.tail.drop (new - mid) = s.tail.drop (new - old) := by
      rw [htail, Tail.drop_drop hs.ended (by omega)]
      congr 1
      omega
    rw [widen_of_le_length hmn hn ht (by omega), widen_of_le_length hon hn hs hle, hword, hdrop]
  · have hcount : new - mid - t.tail.length = new - old - s.tail.length := by omega
    rw [widen_of_length_le hmn hn ht (by omega), widen_of_length_le hon hn hs hge, hword, hcount]

theorem exists_widen_eq_singleton (hon : old ≤ new) (hn : new ≤ 48) {s : Stem} (hs : s.Proper old)
    (hlen : new - old ≤ s.tail.length) :
    ∃ part : Stem, s.widen old new = [part] ∧ part.tail = s.tail.drop (new - old) ∧
      part.value new = s.value old := by
  rcases widen_of_le hon hn hs hlen with ⟨part, hpart, -, -, hvalue⟩
  have h := hpart.symm.trans (widen_of_le_length hon hn hs hlen)
  exact ⟨part, hpart, congrArg Stem.tail (List.singleton_inj.mp h), hvalue⟩

/-- A stop before the tail runs out. -/
theorem flatMap_widen_of_le (hom : old ≤ mid) (hmn : mid ≤ new) (hn : new ≤ 48) {s : Stem}
    (hs : s.Proper old) (hlen : mid - old ≤ s.tail.length) :
    ((s.widen old mid).flatMap fun part => (part.trim mid).widen mid new) = s.widen old new := by
  have hm := Nat.le_trans hmn hn
  have hmax := Tail.length_le s.tail
  obtain ⟨part, hpart, htail, hvalue⟩ := exists_widen_eq_singleton hom hm hs hlen
  have hended : part.tail.Ended := htail.symm ▸ Tail.ended_drop hs.ended hlen
  have htrim : (part.trim mid).tail.length = s.tail.length - (mid - old) :=
    (congrArg Tail.length htail).trans (Tail.length_drop hs.ended hlen)
  have hword : (part.trim mid).leftAligned mid = s.leftAligned old := by
    unfold leftAligned
    rw [value_trim hm, hvalue, htrim]
    congr 2
    omega
  rw [hpart, List.flatMap_singleton]
  exact widen_eq_of_leftAligned hom hmn hn hs (proper_trim hm hended) hlen hword htail

/-- A stop after the tail has run out: what comes after it fills the rows that it began. -/
theorem flatMap_widen_of_lt (hom : old ≤ mid) (hmn : mid ≤ new) (hn : new ≤ 48) {s : Stem}
    (hs : s.Proper old) (hlen : s.tail.length < mid - old) :
    ((s.widen old mid).flatMap fun part => (part.trim mid).widen mid new) = s.widen old new := by
  have hm := Nat.le_trans hmn hn
  obtain ⟨part, hpart, hspec⟩ := widen_of_lt hom hm hs hlen
  have hrows : 2 ^ (new - old - s.tail.length) =
      2 ^ (mid - old - s.tail.length) * 2 ^ (new - mid) :=
    Word.two_pow_eq_mul (by omega)
  have hrow : 2 ^ (54 - mid) = 2 ^ (new - mid) * 2 ^ (54 - new) :=
    Word.two_pow_eq_mul (by omega)
  have hfirst : 2 ^ (54 - old - s.tail.length) =
      2 ^ (mid - old - s.tail.length) * 2 ^ (54 - mid) :=
    Word.two_pow_eq_mul (by omega)
  rw [hpart, List.flatMap_map, widen_of_length_le (Nat.le_trans hom hmn) hn hs (by omega), hrows,
    map_range_mul]
  apply List.flatMap_congr
  intro i hi
  rcases hspec i (List.mem_range.mp hi) with ⟨hempty, hvalue⟩
  have hproper : ((part i).trim mid).Proper mid :=
    proper_trim hm (hempty.symm ▸ Tail.ended_empty)
  have hzero : ((part i).trim mid).tail.length = 0 :=
    (congrArg Tail.length hempty).trans Tail.length_empty
  have hword : ((part i).trim mid).leftAligned mid = s.leftAligned old + i * 2 ^ (54 - mid) := by
    unfold leftAligned
    rw [value_trim hm, hvalue, hzero, Nat.sub_zero, hfirst, Nat.add_mul, Nat.mul_assoc]
  rw [widen_of_length_le hmn hn hproper (by omega), hzero, hword, Nat.sub_zero]
  apply List.map_congr_left
  intro j hj
  rw [hrow, Nat.add_mul (i * 2 ^ (new - mid)), Nat.mul_assoc i, Nat.add_assoc]

/-- The parts of the parts, on a side between, are the parts. -/
theorem flatMap_widen (hom : old ≤ mid) (hmn : mid ≤ new) (hn : new ≤ 48) {s : Stem}
    (hs : s.Proper old) :
    ((s.widen old mid).flatMap fun part => (part.trim mid).widen mid new) = s.widen old new := by
  rcases Nat.lt_or_ge s.tail.length (mid - old) with hlt | hge
  · exact flatMap_widen_of_lt hom hmn hn hs hlt
  · exact flatMap_widen_of_le hom hmn hn hs hge

/-- Widening to the side itself only spells out the tail below the prefix. -/
theorem map_trim_widen_self {logSide : Nat} (hL : logSide ≤ 48) {s : Stem}
    (hs : s.Proper logSide) : (s.widen logSide logSide).map (trim logSide) = [s] := by
  have hself := Nat.le_refl logSide
  have hlen : logSide - logSide ≤ s.tail.length := by omega
  obtain ⟨part, hpart, htail, hvalue⟩ := exists_widen_eq_singleton hself hL hs hlen
  rw [Nat.sub_self, Tail.drop_zero hs.ended] at htail
  have hended : part.tail.Ended := htail.symm ▸ hs.ended
  rw [hpart, List.map_singleton]
  exact congrArg ([·]) (eq_of_value (proper_trim hL hended) hs
    ((value_trim hL part).trans hvalue) htail)

end Stem

/-! ## Entries -/

namespace Entry

variable {old mid new : Nat} (p : Permutation)

/-- The entries that `e` becomes when its side doubles. -/
def doubled (logSide : Nat) (e : Entry) : List Entry :=
  ((e.toStem p logSide).widen logSide (logSide + 1)).map (ofStem p (logSide + 1))

/-- The entries that `e` becomes when its side doubles `times` times, one after the other. -/
def doublings (logSide : Nat) (e : Entry) : (times : Nat) → List Entry
  | 0 => [e]
  | times + 1 => (doublings logSide e times).flatMap (doubled p (logSide + times))

/-- The parts of an entry put in their places on a side between, and widened from there. -/
theorem flatMap_widen (hom : old ≤ mid) (hmn : mid ≤ new) (hn : new ≤ 48) {e : Entry}
    (he : e.Proper old) :
    (((e.toStem p old).widen old mid).flatMap fun part =>
        ((ofStem p mid part).toStem p mid).widen mid new) = (e.toStem p old).widen old new := by
  have hm := Nat.le_trans hmn hn
  have hstem := proper_toStem p (Nat.le_trans hom hm) he
  rw [← Stem.flatMap_widen hom hmn hn hstem]
  apply List.flatMap_congr
  intro part hpart
  rw [toStem_ofStem p hm (Stem.ended_of_mem_widen hom hm hstem hpart)]

theorem doublings_eq (times : Nat) (hn : old + times ≤ 48) {e : Entry} (he : e.Proper old) :
    doublings p old e times =
      ((e.toStem p old).widen old (old + times)).map (ofStem p (old + times)) := by
  induction times with
  | zero =>
      have ho : old ≤ 48 := hn
      have hstem := proper_toStem p ho he
      have hself := Stem.map_trim_widen_self ho hstem
      rcases List.map_eq_singleton_iff.mp hself with ⟨part, hpart, htrim⟩
      have hended : part.tail.Ended :=
        Stem.ended_of_mem_widen (Nat.le_refl old) ho hstem (hpart ▸ List.mem_singleton_self part)
      have hback : ofStem p old part = e := by
        apply toStem_inj p ho (proper_ofStem p ho hended).bucket_lt he.bucket_lt
        rw [toStem_ofStem p ho hended, htrim]
      rw [doublings, Nat.add_zero, hpart, List.map_singleton, hback]
  | succ times ih =>
      have hstep := flatMap_widen p (Nat.le_add_right old times) (Nat.le_succ (old + times)) hn he
      rw [doublings, ih (by omega), List.flatMap_map, ← Nat.add_assoc, ← hstep, List.map_flatMap]
      rfl

/-- An entry that is widened to a side between, put in place there and widened from there leaves the
parts, in their order, that it leaves when it is widened at once; so does one doubling after the
other. -/
theorem widen_in_steps (hom : old ≤ mid) (hmn : mid ≤ new) (hn : new ≤ 48) {e : Entry}
    (hbucket : e.bucket.toNat < 2 ^ old) (htail : e.slot.tail.code ≠ 0) :
    (e.toStem p old).widen old new =
        (((e.toStem p old).widen old mid).flatMap fun part =>
          ((ofStem p mid part).toStem p mid).widen mid new) ∧
      doublings p old e (new - old) = ((e.toStem p old).widen old new).map (ofStem p new) := by
  have he := proper_of_tail_ne hbucket htail
  have hsum : old + (new - old) = new := by omega
  constructor
  · exact (flatMap_widen p hom hmn hn he).symm
  · have hroute := doublings_eq p (new - old) (hsum.symm ▸ hn) he
    rwa [hsum] at hroute

/-- An entry with one tail bit has two parts after two doublings and eight after four. -/
theorem widen_in_steps_of_short_tail :
    let p := Permutation.ofWords 3 5 7 11
    let e := ofStem p 44 ⟨0x123456789abcdef0, ⟨48⟩⟩
    let parts := (e.toStem p 44).widen 44 48
    44 ≤ 46 ∧ 46 ≤ 48 ∧ 48 ≤ 48 ∧ e.bucket.toNat < 2 ^ 44 ∧ e.slot.tail.code ≠ 0 ∧
      ((e.toStem p 44).widen 44 46).length = 2 ∧ parts.length = 8 ∧
      parts = (((e.toStem p 44).widen 44 46).flatMap fun part =>
        ((ofStem p 46 part).toStem p 46).widen 46 48) ∧
      doublings p 44 e 4 = parts.map (ofStem p 48) := by
  intro p e parts
  have hom : 44 ≤ 46 := by decide
  have hmn : 46 ≤ 48 := by decide
  have hn : 48 ≤ 48 := by decide
  have hbucket : e.bucket.toNat < 2 ^ 44 := by decide +kernel
  have htail : e.slot.tail.code ≠ 0 := by decide +kernel
  have hcounts : ((e.toStem p 44).widen 44 46).length = 2 ∧ parts.length = 8 := by
    decide +kernel
  rcases widen_in_steps p hom hmn hn hbucket htail with ⟨hstop, hroute⟩
  exact ⟨hom, hmn, hn, hbucket, htail, hcounts.1, hcounts.2, hstop, hroute⟩

end Entry

end ApproxSet

import ApproxSet.Proofs.Entry

/-!
# What widening keeps

Widening moves a stem to a larger side without the hashes it came from. Seen as numbers, a stem with
tail bits left keeps its number, and one that runs out has its number spread over every value of the
missing bits. Either way the parts stand for the hashes that the stem stood for.
-/

namespace ApproxSet

/-- If no two elements satisfy `q`, at most one of them is counted. -/
theorem countP_eq_of_pairwise {α : Type} {q : α → Bool} {xs : List α}
    (h : xs.Pairwise fun a b => q a = true → q b = false) :
    xs.countP q = if xs.any q then 1 else 0 := by
  induction xs with
  | nil => rfl
  | cons x xs ih =>
      rw [List.pairwise_cons] at h
      cases hx : q x with
      | false => simp [hx, ih h.2]
      | true =>
          have hnone : xs.countP q = 0 := by
            rw [List.countP_eq_zero]
            intro y hy
            simp [h.1 y hy hx]
          simp [hx, hnone]

namespace Stem

variable {old new : Nat}

/-- Prefix and tail bits of a stem, left aligned in a word. -/
theorem toNat_or_payload (ho : old ≤ 48) {s : Stem} (hs : s.Proper old) :
    (s.bits ||| (s.tail.payload.toUInt64 <<< UInt64.ofNat (48 - old))).toNat =
      s.value old * 2 ^ (54 - old - s.tail.length) := by
  have hsum := Tail.length_add_terminator hs.ended
  have hlen := Tail.length_le s.tail
  have hcode := Tail.payload_eq hs.ended
  have hbits := Tail.bits_lt hs.ended
  have hpayload : s.tail.payload.toUInt64.toNat < 2 ^ 6 := by
    rw [UInt16.toNat_toUInt64, hcode, show 6 = s.tail.length + (s.tail.terminator + 1) by omega,
      Nat.pow_add 2 s.tail.length]
    exact Nat.mul_lt_mul_of_pos_right hbits (Nat.two_pow_pos _)
  have hshift : (s.tail.payload.toUInt64 <<< UInt64.ofNat (48 - old)).toNat =
      s.tail.bits * 2 ^ (54 - old - s.tail.length) := by
    rw [Word.toNat_shiftLeft_of_lt hpayload (by omega) (by omega), UInt16.toNat_toUInt64, hcode,
      Nat.mul_assoc, ← Nat.pow_add]
    congr 2
    omega
  have hlow : (s.tail.payload.toUInt64 <<< UInt64.ofNat (48 - old)).toNat < 2 ^ (54 - old) := by
    have hpow : 2 ^ (54 - old) = 2 ^ s.tail.length * 2 ^ (54 - old - s.tail.length) :=
      Word.two_pow_eq_mul (by omega)
    rw [hshift, hpow]
    exact Nat.mul_lt_mul_of_pos_right hbits (Nat.two_pow_pos _)
  have hhead : s.bits.toNat =
      s.bits.toNat / 2 ^ (54 - old) * 2 ^ s.tail.length * 2 ^ (54 - old - s.tail.length) := by
    rw [Nat.mul_assoc, ← Nat.pow_add, show s.tail.length + (54 - old - s.tail.length) = 54 - old by
      omega]
    exact (Nat.div_mul_cancel (Nat.dvd_of_mod_eq_zero hs.aligned)).symm
  rw [Word.toNat_or_of_mod_eq_zero hs.aligned hlow, hshift, value, Nat.add_mul, ← hhead]

/-- With enough tail bits there is one part. It has the number of the stem, and the bits it took in
are gone from its tail. -/
theorem widen_of_le (hon : old ≤ new) (hn : new ≤ 48) {s : Stem} (hs : s.Proper old)
    (hlen : new - old ≤ s.tail.length) :
    ∃ part : Stem, s.widen old new = [part] ∧ part.tail.Ended ∧
      part.tail.length = s.tail.length - (new - old) ∧ part.value new = s.value old := by
  have hspread := toNat_or_payload (Nat.le_trans hon hn) hs
  have hmax := Tail.length_le s.tail
  refine ⟨_, if_pos hlen, Tail.ended_drop hs.ended hlen, Tail.length_drop hs.ended hlen, ?_⟩
  have hpow : 2 ^ (54 - new) =
      2 ^ (54 - old - s.tail.length) * 2 ^ (s.tail.length - (new - old)) :=
    Word.two_pow_eq_mul (by omega)
  have hdiv : s.value old * 2 ^ (54 - old - s.tail.length) / 2 ^ (54 - new) =
      s.value old / 2 ^ (s.tail.length - (new - old)) := by
    rw [hpow, ← Nat.div_div_eq_div_mul, Nat.mul_div_cancel _ (Nat.two_pow_pos _)]
  have hmod : s.value old % 2 ^ (s.tail.length - (new - old)) =
      s.tail.bits % 2 ^ (s.tail.length - (new - old)) := by
    have hdvd : 2 ^ (s.tail.length - (new - old)) ∣
        s.bits.toNat / 2 ^ (54 - old) * 2 ^ s.tail.length :=
      Nat.dvd_trans (Nat.pow_dvd_pow 2 (Nat.sub_le _ _)) (Nat.dvd_mul_left _ _)
    unfold value
    rw [Nat.add_mod, Nat.mod_eq_zero_of_dvd hdvd, Nat.zero_add, Nat.mod_mod]
  rw [value, Tail.length_drop hs.ended hlen, Tail.bits_drop hs.ended hlen, hspread, hdiv, ← hmod,
    Nat.mul_comm]
  exact Nat.div_add_mod _ _

/-- A value of the missing bits goes below all bits of the stem. -/
theorem toNat_or_missing (hon : old ≤ new) (hn : new ≤ 48) {s : Stem} (hs : s.Proper old)
    (hlen : s.tail.length < new - old) {i : Nat} (hi : i < 2 ^ (new - old - s.tail.length)) :
    (s.bits ||| (s.tail.payload.toUInt64 <<< UInt64.ofNat (48 - old)) |||
        (UInt64.ofNat i <<< UInt64.ofNat (64 - width new))).toNat =
      s.value old * 2 ^ (54 - old - s.tail.length) + i * 2 ^ (54 - new) := by
  have hspread := toNat_or_payload (Nat.le_trans hon hn) hs
  have hk : 64 - width new = 54 - new := by
    unfold width Slot.fingerprintBits
    omega
  have hindex : (UInt64.ofNat i).toNat = i := by
    rw [UInt64.toNat_ofNat']
    refine Nat.mod_eq_of_lt (Nat.lt_of_lt_of_le hi ?_)
    exact Nat.pow_le_pow_right Nat.two_pos (by omega)
  have hshift : (UInt64.ofNat i <<< UInt64.ofNat (64 - width new)).toNat = i * 2 ^ (54 - new) := by
    rw [hk, Word.toNat_shiftLeft_of_lt (hindex.symm ▸ hi) (by omega) (by omega), hindex]
  have hpow : 2 ^ (54 - old - s.tail.length) =
      2 ^ (new - old - s.tail.length) * 2 ^ (54 - new) :=
    Word.two_pow_eq_mul (by omega)
  have hlow : (UInt64.ofNat i <<< UInt64.ofNat (64 - width new)).toNat <
      2 ^ (54 - old - s.tail.length) := by
    rw [hshift, hpow]
    exact Nat.mul_lt_mul_of_pos_right hi (Nat.two_pow_pos _)
  have haligned : (s.bits ||| (s.tail.payload.toUInt64 <<< UInt64.ofNat (48 - old))).toNat %
      2 ^ (54 - old - s.tail.length) = 0 := by
    rw [hspread, Nat.mul_mod_left]
  rw [Word.toNat_or_of_mod_eq_zero haligned hlow, hspread, hshift]

/-- When the tail runs out, every value of the missing bits follows the number of the stem. -/
theorem widen_of_lt (hon : old ≤ new) (hn : new ≤ 48) {s : Stem} (hs : s.Proper old)
    (hlen : s.tail.length < new - old) :
    ∃ part : Nat → Stem,
      s.widen old new = (List.range (2 ^ (new - old - s.tail.length))).map part ∧
      ∀ i < 2 ^ (new - old - s.tail.length), (part i).tail = Tail.empty ∧
        (part i).value new = s.value old * 2 ^ (new - old - s.tail.length) + i := by
  refine ⟨_, if_neg (Nat.not_le.mpr hlen), fun i hi => ⟨rfl, ?_⟩⟩
  have hpow : 2 ^ (54 - old - s.tail.length) =
      2 ^ (new - old - s.tail.length) * 2 ^ (54 - new) :=
    Word.two_pow_eq_mul (by omega)
  have hbits := toNat_or_missing hon hn hs hlen hi
  simp only [value, Tail.length_empty, Tail.bits_empty, Nat.pow_zero, Nat.mul_one, Nat.add_zero]
  rw [hbits, hpow, ← Nat.mul_assoc, ← Nat.add_mul, Nat.mul_div_cancel _ (Nat.two_pow_pos _)]
  rfl

theorem ended_of_mem_widen (hon : old ≤ new) (hn : new ≤ 48) {s : Stem} (hs : s.Proper old)
    {part : Stem} (hpart : part ∈ s.widen old new) : part.tail.Ended := by
  by_cases hlen : new - old ≤ s.tail.length
  · rcases widen_of_le hon hn hs hlen with ⟨q, hq, hended, -⟩
    rw [hq, List.mem_singleton] at hpart
    exact hpart ▸ hended
  · rcases widen_of_lt hon hn hs (Nat.not_le.mp hlen) with ⟨q, hq, hspec⟩
    rw [hq, List.mem_map] at hpart
    obtain ⟨i, hi, rfl⟩ := hpart
    rw [(hspec i (List.mem_range.mp hi)).1]
    exact Tail.ended_empty

/-- A part with an empty tail stands for the hashes with its prefix. -/
theorem begins_trim_iff_of_empty (hn : new ≤ 48) {part : Stem} (htail : part.tail = Tail.empty)
    (hash : UInt64) :
    (part.trim new).Begins new hash ↔ hash.toNat / 2 ^ (54 - new) = part.value new := by
  have hended : part.tail.Ended := htail.symm ▸ Tail.ended_empty
  have hlen : (part.trim new).tail.length = 0 := by
    show part.tail.length = 0
    rw [htail, Tail.length_empty]
  rw [begins_iff hn (proper_trim hn hended), value_trim hn, hlen, Nat.sub_zero]

/-- The parts of a stem stand, on the larger side, for the hashes that the stem stands for. -/
theorem begins_widen_iff (hon : old ≤ new) (hn : new ≤ 48) {s : Stem} (hs : s.Proper old)
    (hash : UInt64) :
    (∃ part ∈ s.widen old new, (part.trim new).Begins new hash) ↔ s.Begins old hash := by
  have hmax := Tail.length_le s.tail
  rw [begins_iff (Nat.le_trans hon hn) hs]
  by_cases hlen : new - old ≤ s.tail.length
  · rcases widen_of_le hon hn hs hlen with ⟨q, hq, hended, hqlen, hqvalue⟩
    have htrim : (q.trim new).tail.length = s.tail.length - (new - old) := hqlen
    simp only [hq, List.mem_singleton, exists_eq_left]
    rw [begins_iff hn (proper_trim hn hended), value_trim hn, hqvalue, htrim,
      show 54 - new - (s.tail.length - (new - old)) = 54 - old - s.tail.length by omega]
  · rcases widen_of_lt hon hn hs (Nat.not_le.mp hlen) with ⟨q, hq, hspec⟩
    have hpart (i : Nat) (hi : i < 2 ^ (new - old - s.tail.length)) :
        ((q i).trim new).Begins new hash ↔ hash.toNat / 2 ^ (54 - new) =
          s.value old * 2 ^ (new - old - s.tail.length) + i := by
      rw [begins_trim_iff_of_empty hn (hspec i hi).1, (hspec i hi).2]
    have hcut : hash.toNat / 2 ^ (54 - old - s.tail.length) =
        hash.toNat / 2 ^ (54 - new) / 2 ^ (new - old - s.tail.length) :=
      (Word.div_two_pow_div _ (by omega)).symm
    have hpos := Nat.two_pow_pos (new - old - s.tail.length)
    rw [hq, hcut]
    constructor
    · intro hpart
      rcases hpart with ⟨part, hmem, hbegins⟩
      obtain ⟨i, hi, rfl⟩ := List.mem_map.mp hmem
      have hi := List.mem_range.mp hi
      rw [(hpart i hi).mp hbegins, Nat.mul_comm, Nat.mul_add_div hpos, Nat.div_eq_of_lt hi,
        Nat.add_zero]
    · intro h
      have hlt := Nat.mod_lt (hash.toNat / 2 ^ (54 - new)) hpos
      refine ⟨_, List.mem_map_of_mem (List.mem_range.mpr hlt), (hpart _ hlt).mpr ?_⟩
      rw [← h, Nat.mul_comm]
      exact (Nat.div_add_mod _ _).symm

/-- No hash is stood for by two parts. -/
theorem pairwise_widen (hon : old ≤ new) (hn : new ≤ 48) {s : Stem} (hs : s.Proper old)
    (hash : UInt64) :
    (s.widen old new).Pairwise fun a b =>
      (a.trim new).Begins new hash → ¬ (b.trim new).Begins new hash := by
  by_cases hlen : new - old ≤ s.tail.length
  · rcases widen_of_le hon hn hs hlen with ⟨q, hq, -⟩
    rw [hq]
    exact List.pairwise_singleton _ _
  · rcases widen_of_lt hon hn hs (Nat.not_le.mp hlen) with ⟨q, hq, hspec⟩
    rw [hq, List.pairwise_map]
    apply List.pairwise_lt_range.imp_of_mem
    intro i j hi hj hij hbegins hbegins'
    have hi := hspec i (List.mem_range.mp hi)
    have hj := hspec j (List.mem_range.mp hj)
    rw [begins_trim_iff_of_empty hn hi.1, hi.2] at hbegins
    rw [begins_trim_iff_of_empty hn hj.1, hj.2] at hbegins'
    omega

end Stem

/-! ## Entries -/

namespace Entry

variable {old new : Nat} (p : Permutation)

/-- Is `query` in the bucket of `e`, and is its slot covered by that of `e`? -/
def covers (e query : Entry) : Bool :=
  e.bucket == query.bucket && e.slot.covers query.slot

theorem covers_ofHash_iff (hn : new ≤ 48) {e : Entry} (he : e.Proper new) (hash : UInt64) :
    e.covers (ofHash p new hash) = true ↔ (e.toStem p new).Begins new hash := by
  have h := covers_iff p hn he (bucket_ofHash_lt p hn hash)
  rw [toStem_ofHash p hn] at h
  unfold covers Stem.Begins
  rw [Bool.and_eq_true, beq_iff_eq]
  exact h

/-- A part of a stem, put in its place, covers the hashes that the part stands for. -/
theorem covers_ofStem_iff (hn : new ≤ 48) {part : Stem} (hpart : part.tail.Ended)
    (hash : UInt64) :
    (ofStem p new part).covers (ofHash p new hash) = true ↔
      (part.trim new).Begins new hash := by
  rw [covers_ofHash_iff p hn (proper_ofStem p hn hpart), toStem_ofStem p hn hpart]

/-- Widening an entry divides the hashes that it covers among its parts: a hash that the entry covers
is covered by one part and no more, any other hash by none. -/
theorem countP_widen (hon : old ≤ new) (hn : new ≤ 48) {e : Entry} (he : e.Proper old)
    (hash : UInt64) :
    ((e.toStem p old).widen old new).countP
        (fun part => (ofStem p new part).covers (ofHash p new hash)) =
      if e.covers (ofHash p old hash) then 1 else 0 := by
  have ho := Nat.le_trans hon hn
  have hstem := proper_toStem p ho he
  have hpart (part : Stem) (hmem : part ∈ (e.toStem p old).widen old new) :
      (ofStem p new part).covers (ofHash p new hash) = true ↔ (part.trim new).Begins new hash :=
    covers_ofStem_iff p hn (Stem.ended_of_mem_widen hon hn hstem hmem) hash
  have hpairs : ((e.toStem p old).widen old new).Pairwise fun a b =>
      (ofStem p new a).covers (ofHash p new hash) = true →
        (ofStem p new b).covers (ofHash p new hash) = false := by
    apply (Stem.pairwise_widen hon hn hstem hash).imp_of_mem
    intro a b ha hb hab hcovers
    rw [Bool.eq_false_iff, ne_eq, hpart b hb]
    exact hab ((hpart a ha).mp hcovers)
  have hany : ((e.toStem p old).widen old new).any
      (fun part => (ofStem p new part).covers (ofHash p new hash)) =
        e.covers (ofHash p old hash) := by
    rw [Bool.eq_iff_iff, List.any_eq_true, covers_ofHash_iff p ho he,
      ← Stem.begins_widen_iff hon hn hstem]
    exact exists_congr fun part => and_congr_right (hpart part)
  rw [countP_eq_of_pairwise hpairs, hany]

/-- On the largest side an entry with one tail bit, widened twice, becomes two. One of them covers
what begins as the entry does; a hash that differs in the tail bit is covered by neither. -/
theorem countP_widen_of_short_tail :
    let p := Permutation.ofWords 3 5 7 11
    let e := ofStem p 46 ⟨0x123456789abcdef0, ⟨48⟩⟩
    let covering (hash : UInt64) := ((e.toStem p 46).widen 46 48).countP
      fun part => (ofStem p 48 part).covers (ofHash p 48 hash)
    46 ≤ 48 ∧ 48 ≤ 48 ∧ e.Proper 46 ∧ ((e.toStem p 46).widen 46 48).length = 2 ∧
      covering 0x123456789abcdeff = 1 ∧ covering 0x123456789abcde7f = 0 := by
  intro p e covering
  have hon : 46 ≤ 48 := by decide
  have hn : 48 ≤ 48 := by decide
  have he : e.Proper 46 := ⟨by decide +kernel, by decide +kernel⟩
  have hone := countP_widen p hon hn he 0x123456789abcdeff
  have hnone := countP_widen p hon hn he 0x123456789abcde7f
  have hcovers : e.covers (ofHash p 46 0x123456789abcdeff) = true ∧
      e.covers (ofHash p 46 0x123456789abcde7f) = false := by
    decide +kernel
  rw [hcovers.1, if_pos rfl] at hone
  rw [hcovers.2, if_neg Bool.false_ne_true] at hnone
  exact ⟨hon, hn, he, by decide +kernel, hone, hnone⟩

end Entry

end ApproxSet

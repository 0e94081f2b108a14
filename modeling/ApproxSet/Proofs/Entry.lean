import ApproxSet.Entry
import ApproxSet.Proofs.Permutation
import ApproxSet.Proofs.Tail

/-!
# Entries and their stems

An entry in range and its stem carry the same information, and the stem does not depend on the side.
What an entry answers is therefore a property of its stem: `Covers` compares two stems the way slots
of one bucket are compared, and `Begins` says which hashes a stem stands for, as an equation between
leading bits.
-/

namespace ApproxSet

namespace Slot

theorem word_eq (s : Slot) :
    s.word.toNat = s.fingerprint.toNat * 64 + s.tail.code.toNat := by
  have hf : s.fingerprint.toNat = s.word.toNat / 64 := by
    simp [fingerprint, Nat.shiftRight_eq_div_pow]
  have ht : s.tail.code.toNat = s.word.toNat % 64 := by
    simpa [tail, Tail.fieldMask] using Nat.and_two_pow_sub_one_eq_mod s.word.toNat 6
  omega

theorem fingerprint_lt (s : Slot) : s.fingerprint.toNat < 1024 := by
  have h := word_eq s
  have hw := s.word.toNat_lt
  omega

theorem tail_code_lt (s : Slot) : s.tail.code.toNat < 64 := by
  have h := Nat.and_two_pow_sub_one_eq_mod s.word.toNat 6
  simp only [tail, Tail.fieldMask, UInt16.toNat_and]
  exact h ▸ Nat.mod_lt _ (by omega)

theorem toNat_pack {f : UInt16} {t : Tail} (hf : f.toNat < 1024) (ht : t.code.toNat < 64) :
    (pack f t).word.toNat = f.toNat * 64 + t.code.toNat := by
  have hmask : t.code.toNat &&& 63 = t.code.toNat := by
    rw [Nat.and_two_pow_sub_one_eq_mod t.code.toNat 6, Nat.mod_eq_of_lt ht]
  have hshift : f.toNat <<< 6 % 2 ^ 16 = 2 ^ 6 * f.toNat := by
    rw [Nat.shiftLeft_eq, Nat.mul_comm]
    exact Nat.mod_eq_of_lt (by omega)
  have hor := Nat.two_pow_add_eq_or_of_lt (i := 6) ht f.toNat
  simp only [pack, Tail.fieldMask, UInt16.toNat_or, UInt16.toNat_shiftLeft, UInt16.toNat_and]
  show f.toNat <<< 6 % 2 ^ 16 ||| t.code.toNat &&& 63 = _
  rw [hmask, hshift, ← hor]
  omega

@[simp] theorem fingerprint_pack {f : UInt16} {t : Tail} (hf : f.toNat < 1024)
    (ht : t.code.toNat < 64) : (pack f t).fingerprint = f := by
  have h := toNat_pack hf ht
  have hw := word_eq (pack f t)
  have htail := tail_code_lt (pack f t)
  apply UInt16.toNat_inj.mp
  omega

@[simp] theorem tail_pack {f : UInt16} {t : Tail} (hf : f.toNat < 1024)
    (ht : t.code.toNat < 64) : (pack f t).tail = t := by
  have h := toNat_pack hf ht
  have hw := word_eq (pack f t)
  have htail := tail_code_lt (pack f t)
  have hcode : (pack f t).tail.code = t.code := UInt16.toNat_inj.mp (by omega)
  cases t
  exact congrArg Tail.mk hcode

theorem eq_of_fields {s t : Slot} (hfingerprint : s.fingerprint = t.fingerprint)
    (htail : s.tail = t.tail) : s = t := by
  have hword : s.word = t.word := by
    apply UInt16.toNat_inj.mp
    rw [word_eq s, word_eq t, hfingerprint, htail]
  cases s
  exact congrArg mk hword

theorem isVacant_eq_false_iff (s : Slot) : s.isVacant = false ↔ s.tail.Ended := by
  have hlt := tail_code_lt s
  constructor
  · intro h
    exact ⟨by simpa [isVacant] using h, hlt⟩
  · intro h
    simpa [isVacant] using h.code_ne

theorem fingerprint_withTail (s : Slot) {t : Tail} (ht : t.Ended) :
    (s.withTail t).fingerprint = s.fingerprint :=
  fingerprint_pack (fingerprint_lt s) ht.code_lt

theorem tail_withTail (s : Slot) {t : Tail} (ht : t.Ended) : (s.withTail t).tail = t :=
  tail_pack (fingerprint_lt s) ht.code_lt

end Slot

namespace Stem

/-- Two stems of one side size: the same prefix, and a tail that begins with the tail of `s`. -/
def Covers (s t : Stem) : Prop :=
  s.bits = t.bits ∧ s.tail.isPrefixOf t.tail = true

/-- A prefix and nothing after it, followed by a tail that ends. -/
structure Proper (logSide : Nat) (s : Stem) : Prop where
  aligned : s.bits.toNat % 2 ^ (54 - logSide) = 0
  ended : s.tail.Ended

def ofHash (logSide : Nat) (hash : UInt64) : Stem where
  bits := (hash >>> UInt64.ofNat (64 - width logSide)) <<< UInt64.ofNat (64 - width logSide)
  tail := Tail.full
    (Word.low Tail.maxLength (hash >>> UInt64.ofNat (64 - width logSide - Tail.maxLength))).toUInt16

/-- The stem without what stands below its prefix. -/
def trim (logSide : Nat) (s : Stem) : Stem :=
  ⟨(s.bits >>> UInt64.ofNat (64 - width logSide)) <<< UInt64.ofNat (64 - width logSide), s.tail⟩

/-- The hashes that a stem stands for. -/
def Begins (logSide : Nat) (s : Stem) (hash : UInt64) : Prop :=
  s.Covers (ofHash logSide hash)

/-- Prefix and tail bits as one number. -/
def value (logSide : Nat) (s : Stem) : Nat :=
  s.bits.toNat / 2 ^ (54 - logSide) * 2 ^ s.tail.length + s.tail.bits

theorem Covers.trans {s t u : Stem} (hs : s.tail.Ended) (ht : t.tail.Ended) (hu : u.tail.Ended)
    (hst : s.Covers t) (htu : t.Covers u) : s.Covers u :=
  ⟨hst.1.trans htu.1, Tail.isPrefixOf_trans hs ht hu hst.2 htu.2⟩

variable {logSide : Nat}

theorem toNat_cut (hL : logSide ≤ 48) (x : UInt64) :
    ((x >>> UInt64.ofNat (64 - width logSide)) <<< UInt64.ofNat (64 - width logSide)).toNat =
      x.toNat / 2 ^ (54 - logSide) * 2 ^ (54 - logSide) := by
  have hk : 64 - width logSide = 54 - logSide := by
    unfold width Slot.fingerprintBits
    omega
  have hle := Nat.div_mul_le_self x.toNat (2 ^ (54 - logSide))
  have hlt := x.toNat_lt
  rw [hk, Word.toNat_shiftLeft_ofNat _ (by omega), Word.toNat_shiftRight_ofNat _ (by omega)]
  exact Nat.mod_eq_of_lt (Nat.lt_of_le_of_lt hle hlt)

theorem toNat_tailBits (hL : logSide ≤ 48) (hash : UInt64) :
    (Word.low Tail.maxLength
        (hash >>> UInt64.ofNat (64 - width logSide - Tail.maxLength))).toUInt16.toNat =
      hash.toNat / 2 ^ (49 - logSide) % 32 := by
  have hk : 64 - width logSide - Tail.maxLength = 49 - logSide := by
    unfold width Slot.fingerprintBits Tail.maxLength
    omega
  rw [UInt64.toNat_toUInt16, Word.toNat_low, hk, Word.toNat_shiftRight_ofNat _ (by omega)]
  exact Nat.mod_eq_of_lt (Nat.lt_trans (Nat.mod_lt _ (by decide)) (by decide))

theorem ended_ofHash (hL : logSide ≤ 48) (hash : UInt64) : (ofHash logSide hash).tail.Ended := by
  apply Tail.ended_full
  rw [toNat_tailBits hL]
  exact Nat.mod_lt _ (by omega)

theorem proper_ofHash (hL : logSide ≤ 48) (hash : UInt64) :
    (ofHash logSide hash).Proper logSide := by
  refine ⟨?_, ended_ofHash hL hash⟩
  simp only [ofHash, toNat_cut hL, Nat.mul_mod_left]

theorem proper_trim (hL : logSide ≤ 48) {s : Stem} (hs : s.tail.Ended) :
    (s.trim logSide).Proper logSide := by
  refine ⟨?_, hs⟩
  simp only [trim, toNat_cut hL, Nat.mul_mod_left]

theorem trim_of_aligned (hL : logSide ≤ 48) {s : Stem}
    (hs : s.bits.toNat % 2 ^ (54 - logSide) = 0) : s.trim logSide = s := by
  cases s with
  | mk bits tail =>
      refine congrArg (Stem.mk · tail) (UInt64.toNat_inj.mp ?_)
      rw [toNat_cut hL]
      exact Nat.div_mul_cancel (Nat.dvd_of_mod_eq_zero hs)

theorem value_trim (hL : logSide ≤ 48) (s : Stem) :
    (s.trim logSide).value logSide = s.value logSide := by
  unfold value
  simp only [trim, toNat_cut hL]
  rw [Nat.mul_div_cancel _ (Nat.two_pow_pos _)]

/-- A prefix and a tail make the number of one stem. -/
theorem eq_of_value {s t : Stem} (hs : s.Proper logSide) (ht : t.Proper logSide)
    (hvalue : s.value logSide = t.value logSide) (htail : s.tail = t.tail) : s = t := by
  have hprefix : s.bits.toNat / 2 ^ (54 - logSide) = t.bits.toNat / 2 ^ (54 - logSide) := by
    unfold value at hvalue
    rw [htail] at hvalue
    exact Nat.eq_of_mul_eq_mul_right (Nat.two_pow_pos _) (Nat.add_right_cancel hvalue)
  have hbits : s.bits = t.bits := by
    apply UInt64.toNat_inj.mp
    rw [← Nat.div_mul_cancel (Nat.dvd_of_mod_eq_zero hs.aligned), hprefix,
      Nat.div_mul_cancel (Nat.dvd_of_mod_eq_zero ht.aligned)]
  cases s
  exact congrArg₂ mk hbits htail

/-- A stem stands for the hashes whose leading bits are its number. -/
theorem begins_iff (hL : logSide ≤ 48) {s : Stem} (hs : s.Proper logSide) (hash : UInt64) :
    s.Begins logSide hash ↔
      hash.toNat / 2 ^ (54 - logSide - s.tail.length) = s.value logSide := by
  have hlen := Tail.length_le s.tail
  have hbits := Tail.bits_lt hs.ended
  have hn : hash.toNat / 2 ^ (49 - logSide) % 32 < 32 := Nat.mod_lt _ (by omega)
  -- the leading bits, cut at the end of the prefix
  have hhigh : hash.toNat / 2 ^ (54 - logSide - s.tail.length) / 2 ^ s.tail.length =
      hash.toNat / 2 ^ (54 - logSide) :=
    Word.div_two_pow_div _ (by omega)
  have hlow : hash.toNat / 2 ^ (54 - logSide - s.tail.length) % 2 ^ s.tail.length =
      hash.toNat / 2 ^ (49 - logSide) % 32 / 2 ^ (5 - s.tail.length) := by
    have h32 : 32 = 2 ^ (5 - s.tail.length) * 2 ^ s.tail.length :=
      Word.two_pow_eq_mul (c := 5) (by omega)
    have hcut : hash.toNat / 2 ^ (49 - logSide) / 2 ^ (5 - s.tail.length) =
        hash.toNat / 2 ^ (54 - logSide - s.tail.length) :=
      Word.div_two_pow_div _ (by omega)
    rw [h32, Nat.mod_mul_right_div_self, hcut]
  have hhead : s.bits = (ofHash logSide hash).bits ↔
      hash.toNat / 2 ^ (54 - logSide) = s.bits.toNat / 2 ^ (54 - logSide) := by
    have hdvd := Nat.div_mul_cancel (Nat.dvd_of_mod_eq_zero hs.aligned)
    rw [← UInt64.toNat_inj]
    simp only [ofHash, toNat_cut hL]
    constructor
    · intro h
      rw [h, Nat.mul_div_cancel _ (Nat.two_pow_pos _)]
    · intro h
      rw [h, hdvd]
  have htail : s.tail.isPrefixOf (ofHash logSide hash).tail = true ↔
      hash.toNat / 2 ^ (49 - logSide) % 32 / 2 ^ (5 - s.tail.length) = s.tail.bits := by
    rw [Tail.isPrefixOf_iff hs.ended (ended_ofHash hL hash)]
    simp only [ofHash]
    rw [Tail.length_full (by rw [toNat_tailBits hL]; exact hn),
      Tail.bits_full (by rw [toNat_tailBits hL]; exact hn), toNat_tailBits hL]
    exact and_iff_right hlen
  unfold Begins Covers value
  rw [hhead, htail, ← hhigh, ← hlow]
  constructor
  · intro hboth
    rcases hboth with ⟨hq, hr⟩
    rw [← hq, ← hr, Nat.mul_comm]
    exact (Nat.div_add_mod _ _).symm
  · intro h
    rw [h, Nat.mul_comm, Nat.mul_add_div (Nat.two_pow_pos _), Nat.mul_add_mod,
      Nat.div_eq_of_lt hbits, Nat.mod_eq_of_lt hbits]
    exact ⟨Nat.add_zero _, rfl⟩

/-- The stem of a hash stands for the hashes that agree with it above the unused bits. -/
theorem begins_ofHash_iff (hL : logSide ≤ 48) (g h : UInt64) :
    (ofHash logSide h).Begins logSide g ↔
      g.toNat / 2 ^ (49 - logSide) = h.toNat / 2 ^ (49 - logSide) := by
  have hn : h.toNat / 2 ^ (49 - logSide) % 32 < 32 := Nat.mod_lt _ (by omega)
  have hlen : (ofHash logSide h).tail.length = 5 :=
    Tail.length_full (by rw [toNat_tailBits hL]; exact hn)
  have hbits : (ofHash logSide h).tail.bits = h.toNat / 2 ^ (49 - logSide) % 32 := by
    simp only [ofHash]
    rw [Tail.bits_full (by rw [toNat_tailBits hL]; exact hn), toNat_tailBits hL]
  have hvalue : (ofHash logSide h).value logSide = h.toNat / 2 ^ (49 - logSide) := by
    have hcut : h.toNat / 2 ^ (54 - logSide) = h.toNat / 2 ^ (49 - logSide) / 32 :=
      (Word.div_two_pow_div (b := 5) _ (by omega)).symm
    unfold value
    rw [hlen, hbits]
    simp only [ofHash, toNat_cut hL]
    rw [Nat.mul_div_cancel _ (Nat.two_pow_pos _), hcut]
    omega
  rw [begins_iff hL (proper_ofHash hL h), hvalue, hlen, show 54 - logSide - 5 = 49 - logSide by omega]

theorem Begins.of_covers (hL : logSide ≤ 48) {s t : Stem} (hs : s.tail.Ended) (ht : t.tail.Ended)
    (hst : s.Covers t) {hash : UInt64} (h : t.Begins logSide hash) : s.Begins logSide hash :=
  hst.trans hs ht (ended_ofHash hL hash) h

end Stem

namespace Entry

/-- In range on a side of `2 ^ logSide` buckets, and not vacant. -/
structure Proper (logSide : Nat) (e : Entry) : Prop where
  bucket_lt : e.bucket.toNat < 2 ^ logSide
  occupied : e.slot.isVacant = false

variable {logSide : Nat} (p : Permutation)

theorem proper_of_tail_ne {e : Entry} (hbucket : e.bucket.toNat < 2 ^ logSide)
    (htail : e.slot.tail.code ≠ 0) : e.Proper logSide :=
  ⟨hbucket, (Slot.isVacant_eq_false_iff _).mpr ⟨htail, Slot.tail_code_lt _⟩⟩

theorem width_le (hL : logSide ≤ 48) : Stem.width logSide ≤ 64 := by
  unfold Stem.width Slot.fingerprintBits
  omega

theorem toNat_permuted (hL : logSide ≤ 48) {e : Entry} (he : e.bucket.toNat < 2 ^ logSide) :
    e.permuted.toNat = e.bucket.toNat * 1024 + e.slot.fingerprint.toNat := by
  have hshift : (e.bucket <<< (10 : UInt64)).toNat = e.bucket.toNat * 2 ^ 10 :=
    Word.toNat_shiftLeft_of_lt (b := 10) he (by decide) (by omega)
  have hf : e.slot.fingerprint.toUInt64.toNat < 2 ^ 10 := by
    simpa using Slot.fingerprint_lt e.slot
  unfold permuted
  rw [Word.toNat_or_of_mod_eq_zero (k := 10) _ hf, hshift]
  · simp
  · rw [hshift, Nat.mul_mod_left]

theorem permuted_lt (hL : logSide ≤ 48) {e : Entry} (he : e.bucket.toNat < 2 ^ logSide) :
    e.permuted.toNat < 2 ^ Stem.width logSide := by
  have hf := Slot.fingerprint_lt e.slot
  have hpow : 2 ^ Stem.width logSide = 2 ^ logSide * 1024 := Nat.pow_add 2 logSide 10
  rw [toNat_permuted hL he, hpow]
  omega

theorem permuted_eq_iff (hL : logSide ≤ 48) {e q : Entry} (he : e.bucket.toNat < 2 ^ logSide)
    (hq : q.bucket.toNat < 2 ^ logSide) :
    e.permuted = q.permuted ↔ e.bucket = q.bucket ∧ e.slot.fingerprint = q.slot.fingerprint := by
  have hfe := Slot.fingerprint_lt e.slot
  have hfq := Slot.fingerprint_lt q.slot
  rw [← UInt64.toNat_inj, ← UInt64.toNat_inj, ← UInt16.toNat_inj, toNat_permuted hL he,
    toNat_permuted hL hq]
  omega

theorem toNat_hashPrefix (hL : logSide ≤ 48) (e : Entry) :
    (e.hashPrefix p logSide).toNat =
      (p.backward (Stem.width logSide) e.permuted).toNat * 2 ^ (54 - logSide) := by
  have hk : 64 - Stem.width logSide = 54 - logSide := by
    unfold Stem.width Slot.fingerprintBits
    omega
  unfold hashPrefix
  rw [hk]
  refine Word.toNat_shiftLeft_of_lt (p.backward_lt (width_le hL) _) (by omega) ?_
  unfold Stem.width Slot.fingerprintBits
  omega

theorem hashPrefix_eq_iff (hL : logSide ≤ 48) {e q : Entry} (he : e.bucket.toNat < 2 ^ logSide)
    (hq : q.bucket.toNat < 2 ^ logSide) :
    e.hashPrefix p logSide = q.hashPrefix p logSide ↔
      e.bucket = q.bucket ∧ e.slot.fingerprint = q.slot.fingerprint := by
  rw [← permuted_eq_iff hL he hq]
  constructor
  · intro h
    have hnat := congrArg UInt64.toNat h
    rw [toNat_hashPrefix p hL, toNat_hashPrefix p hL] at hnat
    have hback := Nat.eq_of_mul_eq_mul_right (Nat.two_pow_pos _) hnat
    exact p.backward_inj (width_le hL) (permuted_lt hL he) (permuted_lt hL hq)
      (UInt64.toNat_inj.mp hback)
  · intro h
    unfold hashPrefix
    rw [h]

theorem toNat_bucket_ofHash (hash : UInt64) :
    (ofHash p logSide hash).bucket.toNat =
      (p.forward (Stem.width logSide)
        (hash >>> UInt64.ofNat (64 - Stem.width logSide))).toNat / 1024 := by
  simp [ofHash, Nat.shiftRight_eq_div_pow]

theorem bucket_ofHash_lt (hL : logSide ≤ 48) (hash : UInt64) :
    (ofHash p logSide hash).bucket.toNat < 2 ^ logSide := by
  have h := p.forward_lt (width_le hL) (hash >>> UInt64.ofNat (64 - Stem.width logSide))
  have hpow : 2 ^ Stem.width logSide = 2 ^ logSide * 1024 := Nat.pow_add 2 logSide 10
  rw [toNat_bucket_ofHash]
  omega

private theorem toNat_fingerprint_field (x : UInt64) :
    (x &&& 1023).toUInt16.toNat = x.toNat % 1024 := by
  have h := Nat.and_two_pow_sub_one_eq_mod x.toNat 10
  simp only [UInt64.toNat_toUInt16, UInt64.toNat_and]
  show (x.toNat &&& 1023) % 2 ^ 16 = _
  rw [h]
  omega

private theorem fingerprint_field_lt (x : UInt64) : (x &&& 1023).toUInt16.toNat < 1024 := by
  rw [toNat_fingerprint_field]
  exact Nat.mod_lt _ (by omega)

theorem fingerprint_ofHash (hL : logSide ≤ 48) (hash : UInt64) :
    (ofHash p logSide hash).slot.fingerprint.toNat =
      (p.forward (Stem.width logSide)
        (hash >>> UInt64.ofNat (64 - Stem.width logSide))).toNat % 1024 := by
  have hended := Stem.ended_ofHash hL hash
  have hpack := Slot.fingerprint_pack (fingerprint_field_lt (p.forward (Stem.width logSide)
    (hash >>> UInt64.ofNat (64 - Stem.width logSide)))) hended.code_lt
  rw [← toNat_fingerprint_field, ← hpack]
  rfl

theorem tail_ofHash (hL : logSide ≤ 48) (hash : UInt64) :
    (ofHash p logSide hash).slot.tail = (Stem.ofHash logSide hash).tail :=
  Slot.tail_pack (fingerprint_field_lt _) (Stem.ended_ofHash hL hash).code_lt

theorem permuted_ofHash (hL : logSide ≤ 48) (hash : UInt64) :
    (ofHash p logSide hash).permuted =
      p.forward (Stem.width logSide) (hash >>> UInt64.ofNat (64 - Stem.width logSide)) := by
  apply UInt64.toNat_inj.mp
  rw [toNat_permuted hL (bucket_ofHash_lt p hL hash), toNat_bucket_ofHash, fingerprint_ofHash p hL]
  omega

/-- Going to a side and back gives the prefix of a hash. -/
theorem toStem_ofHash (hL : logSide ≤ 48) (hash : UInt64) :
    (ofHash p logSide hash).toStem p logSide = Stem.ofHash logSide hash := by
  have hcut : (hash >>> UInt64.ofNat (64 - Stem.width logSide)).toNat <
      2 ^ Stem.width logSide := by
    have hk : 64 - Stem.width logSide < 64 := by
      unfold Stem.width Slot.fingerprintBits
      omega
    have hlt := hash.toNat_lt
    rw [Word.toNat_shiftRight_ofNat _ hk]
    apply Nat.div_lt_of_lt_mul
    rw [← Nat.pow_add, show 64 - Stem.width logSide + Stem.width logSide = 64 by
      have := width_le hL
      omega]
    exact hlt
  unfold toStem
  rw [tail_ofHash p hL, hashPrefix, permuted_ofHash p hL, p.backward_forward (width_le hL),
    Word.low_of_lt hcut]
  rfl

theorem proper_ofStem (hL : logSide ≤ 48) {s : Stem} (hs : s.tail.Ended) :
    (ofStem p logSide s).Proper logSide := by
  refine ⟨bucket_ofHash_lt p hL s.bits, ?_⟩
  rw [Slot.isVacant_eq_false_iff]
  exact (Slot.tail_withTail _ hs).symm ▸ hs

/-- Going to a side and back gives a stem without what stands below its prefix. -/
theorem toStem_ofStem (hL : logSide ≤ 48) {s : Stem} (hs : s.tail.Ended) :
    (ofStem p logSide s).toStem p logSide = s.trim logSide := by
  have hbits : (ofStem p logSide s).hashPrefix p logSide =
      (ofHash p logSide s.bits).hashPrefix p logSide := by
    refine (hashPrefix_eq_iff p hL ?_ (bucket_ofHash_lt p hL s.bits)).mpr ?_
    · exact bucket_ofHash_lt p hL s.bits
    · exact ⟨rfl, Slot.fingerprint_withTail _ hs⟩
  have htail : (ofStem p logSide s).slot.tail = s.tail := Slot.tail_withTail _ hs
  have hhash : (ofHash p logSide s.bits).hashPrefix p logSide = (Stem.ofHash logSide s.bits).bits :=
    congrArg Stem.bits (toStem_ofHash p hL s.bits)
  unfold toStem
  rw [htail, hbits, hhash]
  rfl

theorem proper_toStem (hL : logSide ≤ 48) {e : Entry} (he : e.Proper logSide) :
    (e.toStem p logSide).Proper logSide := by
  refine ⟨?_, (Slot.isVacant_eq_false_iff _).mp he.occupied⟩
  simp only [toStem, toNat_hashPrefix p hL, Nat.mul_mod_left]

/-- On its side, a stem belongs to one entry. -/
theorem toStem_inj (hL : logSide ≤ 48) {e q : Entry} (he : e.bucket.toNat < 2 ^ logSide)
    (hq : q.bucket.toNat < 2 ^ logSide) (h : e.toStem p logSide = q.toStem p logSide) : e = q := by
  rcases (hashPrefix_eq_iff p hL he hq).mp (congrArg Stem.bits h) with ⟨hbucket, hfingerprint⟩
  have hslot : e.slot = q.slot := Slot.eq_of_fields hfingerprint (congrArg Stem.tail h)
  cases e
  exact congrArg₂ mk hbucket hslot

/-- A slot covers another slot of its bucket exactly if their stems do. -/
theorem covers_iff (hL : logSide ≤ 48) {e q : Entry} (he : e.Proper logSide)
    (hq : q.bucket.toNat < 2 ^ logSide) :
    e.bucket = q.bucket ∧ e.slot.covers q.slot = true ↔
      (e.toStem p logSide).Covers (q.toStem p logSide) := by
  simp only [Stem.Covers, toStem, hashPrefix_eq_iff p hL he.bucket_lt hq, Slot.covers,
    he.occupied, Bool.not_false, Bool.true_and, Bool.and_eq_true, beq_iff_eq, and_assoc]

end Entry

end ApproxSet

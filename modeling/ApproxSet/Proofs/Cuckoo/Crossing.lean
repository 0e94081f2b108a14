import ApproxSet.Proofs.Cuckoo.Settle
import ApproxSet.Proofs.Widen

/-!
# Changing sides

An entry that is evicted takes its stem to the other side and leaves bucket and fingerprint behind.
The stem is all that a lookup depends on, so the entry answers there as it did here, and since a
stem belongs to one entry of a side, coming back gives the entry that left. The two permutations
need not have anything to do with each other.
-/

namespace ApproxSet.Cuckoo

variable {f : Cuckoo} {e : Entry}

theorem tail_cross (hL : f.logSide ≤ maxLogSide) (s : Side) (he : e.Proper f.logSide) :
    (f.cross s e).slot.tail = e.slot.tail :=
  congrArg Stem.tail (toStem_cross hL s he)

theorem cross_cross (hL : f.logSide ≤ maxLogSide) (s : Side) (he : e.Proper f.logSide) :
    f.cross s.other (f.cross s e) = e := by
  have hback := toStem_cross hL s.other (proper_cross hL s he)
  rw [Side.other_other, toStem_cross hL s he] at hback
  exact Entry.toStem_inj _ hL (proper_cross hL s.other (proper_cross hL s he)).bucket_lt
    he.bucket_lt hback

/-- What an entry answers on its side is a matter of its stem. -/
theorem covers_entryOf_iff (hL : f.logSide ≤ maxLogSide) (s : Side) (he : e.Proper f.logSide)
    (hash : UInt64) :
    e.bucket = (f.entryOf s hash).bucket ∧ e.slot.covers (f.entryOf s hash).slot = true ↔
      (e.toStem (f.entropy.get s) f.logSide).Begins f.logSide hash := by
  have hquery := Entry.bucket_ofHash_lt (f.entropy.get s) hL hash
  rw [Stem.Begins, ← Entry.toStem_ofHash (f.entropy.get s) hL]
  exact Entry.covers_iff (f.entropy.get s) hL he hquery

/-- Changing sides twice is staying where one is, and on either side an entry is found by the same
hashes. -/
theorem cross_involutive (hL : f.logSide ≤ maxLogSide) (s : Side)
    (hbucket : e.bucket.toNat < 2 ^ f.logSide) (htail : e.slot.tail.code ≠ 0) :
    (f.cross s e).bucket.toNat < 2 ^ f.logSide ∧
      (f.cross s e).slot.tail = e.slot.tail ∧
      f.cross s.other (f.cross s e) = e ∧
      ∀ hash : UInt64,
        e.bucket = (f.entryOf s hash).bucket ∧ e.slot.covers (f.entryOf s hash).slot = true ↔
          (f.cross s e).bucket = (f.entryOf s.other hash).bucket ∧
            (f.cross s e).slot.covers (f.entryOf s.other hash).slot = true := by
  have he := Entry.proper_of_tail_ne hbucket htail
  refine ⟨(proper_cross hL s he).bucket_lt, tail_cross hL s he, cross_cross hL s he, ?_⟩
  intro hash
  rw [covers_entryOf_iff hL s he, covers_entryOf_iff hL s.other (proper_cross hL s he),
    toStem_cross hL s he]

/-- On the largest side, an entry with one tail bit. A hash that it covers on the left finds it on the
right too, a hash that differs in the tail bit finds it on neither side. -/
theorem cross_involutive_of_short_tail :
    let f : Cuckoo :=
      ⟨maxLogSide, Entropy.standard, ⟨⟨#[], #[]⟩, ⟨#[], #[]⟩⟩, Sampler.start 2, 0, 0⟩
    let e : Entry := ⟨0xfedcba987654, ⟨0xfff0⟩⟩
    let covered (e : Entry) (s : Side) (hash : UInt64) :=
      e.bucket = (f.entryOf s hash).bucket ∧ e.slot.covers (f.entryOf s hash).slot = true
    f.logSide ≤ maxLogSide ∧ e.bucket.toNat < 2 ^ f.logSide ∧ e.slot.tail.code ≠ 0 ∧
      (f.cross .left e).bucket ≠ e.bucket ∧ (f.cross .left e).bucket.toNat < 2 ^ f.logSide ∧
      (f.cross .left e).slot.tail = e.slot.tail ∧ f.cross .right (f.cross .left e) = e ∧
      covered (f.cross .left e) .right 1176560344202634239 ∧
      ¬ covered (f.cross .left e) .right 1176560344202634207 := by
  intro f e covered
  have hL : f.logSide ≤ maxLogSide := Nat.le_refl _
  have hbucket : e.bucket.toNat < 2 ^ f.logSide := by decide +kernel
  have htail : e.slot.tail.code ≠ 0 := by decide
  have hleft : covered e .left 1176560344202634239 ∧ ¬ covered e .left 1176560344202634207 := by
    decide +kernel
  have hmoves : (f.cross .left e).bucket ≠ e.bucket := by decide +kernel
  rcases cross_involutive hL .left hbucket htail with ⟨hlt, hsame, hback, hfound⟩
  exact ⟨hL, hbucket, htail, hmoves, hlt, hsame, hback, (hfound _).mp hleft.1,
    fun h => hleft.2 ((hfound _).mpr h)⟩

end ApproxSet.Cuckoo

import ApproxSet.Cuckoo.Table
import ApproxSet.Proofs.Entry
import Mathlib.Data.List.Perm.Basic

/-!
# Placing an entry in a table

A bucket is looked at as the list of its occupants and a table as the list of its entries. Offering a
slot to a bucket, and placing an entry in a table, are then said once and for all: what was there and
what came is, in some order, what is there now and what left.
-/

namespace ApproxSet

open List (Perm)

theorem Slot.isVacant_of_covers {t s : Slot} (h : t.covers s = true) : t.isVacant = false := by
  simp only [covers, Bool.and_eq_true, Bool.not_eq_true'] at h
  exact h.1.1

namespace Bucket

theorem mem_occupants {b : Bucket} {s : Slot} :
    s ∈ b.occupants ↔ s ∈ b.toList ∧ s.isVacant = false := by
  simp [occupants]

theorem findFinIdx?_eq_some {b : Bucket} {p : Slot → Bool} {i : Fin 4}
    (h : b.findFinIdx? p = some i) : p (b.get i) = true ∧ ∀ j < i, p (b.get j) = false := by
  rcases b with ⟨slots, hsize⟩
  rw [Vector.findFinIdx?_mk, Option.map_eq_some_iff] at h
  rcases h with ⟨k, hk, rfl⟩
  rcases Array.findFinIdx?_eq_some_iff.mp hk with ⟨hp, hbefore⟩
  exact ⟨hp, fun j hj => eq_false_of_ne_true (hbefore (j.cast hsize.symm) hj)⟩

theorem receive_stored {b b' : Bucket} {s : Slot} (h : b.receive s = .stored b') :
    ∃ i : Fin 4, (b.get i).isVacant = true ∧
      (∀ j < i, (b.get j).isVacant = false ∧ (b.get j).covers s = false) ∧
      b' = b.set i s i.isLt := by
  unfold receive at h
  split at h
  · rename_i i hi
    split at h
    · rename_i hvacant
      cases h
      refine ⟨i, hvacant, fun j hj => ?_, rfl⟩
      exact Bool.or_eq_false_iff.mp ((findFinIdx?_eq_some hi).2 j hj)
    · cases h
  · cases h

theorem receive_covered {b : Bucket} {s : Slot} (h : b.receive s = .covered) :
    ∃ t ∈ b.occupants, t.covers s = true := by
  unfold receive at h
  split at h
  · rename_i i hi
    split at h
    · cases h
    · rename_i hvacant
      have hused : (b.get i).isVacant = false := Bool.eq_false_iff.mpr hvacant
      have hcovers := (findFinIdx?_eq_some hi).1
      rw [hused, Bool.false_or] at hcovers
      have hmem : b.get i ∈ b.toList := Vector.mem_toList_iff.mpr (Vector.getElem_mem i.isLt)
      exact ⟨b.get i, mem_occupants.mpr ⟨hmem, hused⟩, hcovers⟩
  · cases h

theorem receive_full {b : Bucket} {s : Slot} (h : b.receive s = .full) (i : Fin 4) :
    (b.get i).isVacant = false ∧ (b.get i).covers s = false := by
  unfold receive at h
  split at h
  · split at h <;> cases h
  · rename_i hnone
    have hall := Vector.findFinIdx?_eq_none_iff.mp hnone (b.get i) (Vector.getElem_mem i.isLt)
    exact Bool.or_eq_false_iff.mp (eq_false_of_ne_true hall)

theorem occupants_set (b : Bucket) (i : Fin 4) {s : Slot} (hs : s.isVacant = false) :
    (if (b.get i).isVacant then occupants (b.set i s i.isLt)
      else b.get i :: occupants (b.set i s i.isLt)).Perm (s :: b.occupants) := by
  have hlen : (i : Nat) < b.toList.length := by simp
  have hget : b.toList[(i : Nat)] = b.get i := Vector.getElem_toList hlen
  have hnew : (occupants (b.set i s)).Perm
      (s :: (b.toList.eraseIdx i).filter (!·.isVacant)) := by
    have h := (List.set_perm_cons_eraseIdx hlen s).filter (!·.isVacant)
    rw [← Vector.toList_set] at h
    rwa [List.filter_cons_of_pos (by simpa using hs)] at h
  have hold : ((b.get i :: b.toList.eraseIdx i).filter (!·.isVacant)).Perm b.occupants := by
    have h := (List.getElem_cons_eraseIdx_perm hlen).filter (!·.isVacant)
    rwa [hget] at h
  by_cases hvacant : (b.get i).isVacant = true
  · rw [List.filter_cons_of_neg (by simpa using hvacant)] at hold
    rw [if_pos hvacant]
    exact hnew.trans (hold.cons s)
  · rw [List.filter_cons_of_pos (by simpa using hvacant)] at hold
    rw [if_neg hvacant]
    exact ((hnew.cons (b.get i)).trans (Perm.swap s (b.get i) _)).trans (hold.cons s)

theorem covers_iff {b : Bucket} {s : Slot} :
    b.covers s = true ↔ ∃ t ∈ b.occupants, t.covers s = true := by
  unfold covers
  rw [Vector.any_eq_true']
  constructor
  · intro hfound
    rcases hfound with ⟨t, hmem, ht⟩
    exact ⟨t, mem_occupants.mpr ⟨Vector.mem_toList_iff.mpr hmem, Slot.isVacant_of_covers ht⟩, ht⟩
  · intro hfound
    rcases hfound with ⟨t, hmem, ht⟩
    exact ⟨t, Vector.mem_toList_iff.mp (mem_occupants.mp hmem).1, ht⟩

theorem occupants_vacant : vacant.occupants = [] := by decide

end Bucket

namespace Table

variable {logSide : Nat}

def entriesAt (i : UInt64) (b : Bucket) : List Entry :=
  b.occupants.map fun s => ⟨i, s⟩

theorem mem_entriesAt {i : UInt64} {b : Bucket} {e : Entry} :
    e ∈ entriesAt i b ↔ e.bucket = i ∧ e.slot ∈ b.occupants := by
  unfold entriesAt
  rw [List.mem_map]
  constructor
  · intro hmem
    rcases hmem with ⟨s, hs, rfl⟩
    exact ⟨rfl, hs⟩
  · intro hmem
    rcases hmem with ⟨rfl, hs⟩
    exact ⟨e.slot, hs, rfl⟩

def entriesOf (x : Bucket × Nat) : List Entry :=
  entriesAt (UInt64.ofNat x.2) x.1

theorem entries_eq (t : Table) :
    t.entries = t.stash.toList ++ t.buckets.toList.zipIdx.flatMap entriesOf := rfl

theorem bucketAt_of_lt {t : Table} {i : UInt64} (hi : i.toNat < t.buckets.size) :
    t.bucketAt i = t.buckets[i.toNat] := by
  simp [bucketAt, hi]

/-- All entries in order, seen from one bucket: those before it, its own, and those after it. Only
its own change when the bucket is replaced. -/
theorem entries_split (t : Table) {i : UInt64} (hi : i.toNat < t.buckets.size) :
    ∃ front back : List Entry, t.entries = front ++ entriesAt i (t.bucketAt i) ++ back ∧
      ∀ b, (t.setBucket i b).entries = front ++ entriesAt i b ++ back := by
  rcases t with ⟨buckets, stash⟩
  have hlen : i.toNat < buckets.toList.length := by simpa using hi
  have hat : Table.bucketAt ⟨buckets, stash⟩ i = buckets.toList[i.toNat] := by
    rw [bucketAt_of_lt hi, Array.getElem_toList]
  have hself (b : Bucket) : entriesOf (b, i.toNat) = entriesAt i b := by
    rw [entriesOf, UInt64.ofNat_toNat]
  have htake : (buckets.toList.take i.toNat).length = i.toNat := by
    rw [List.length_take]
    omega
  have hlist (b : Bucket) :
      (buckets.toList.take i.toNat ++ b :: buckets.toList.drop (i.toNat + 1)).zipIdx.flatMap
          entriesOf =
        (buckets.toList.take i.toNat).zipIdx.flatMap entriesOf ++ entriesAt i b ++
          ((buckets.toList.drop (i.toNat + 1)).zipIdx (i.toNat + 1)).flatMap entriesOf := by
    rw [List.zipIdx_append, List.zipIdx_cons, List.flatMap_append, List.flatMap_cons, htake,
      Nat.zero_add, hself, List.append_assoc]
  refine ⟨stash.toList ++ (buckets.toList.take i.toNat).zipIdx.flatMap entriesOf,
    ((buckets.toList.drop (i.toNat + 1)).zipIdx (i.toNat + 1)).flatMap entriesOf, ?_, ?_⟩
  · have hsplit : buckets.toList = buckets.toList.take i.toNat ++
        buckets.toList[i.toNat] :: buckets.toList.drop (i.toNat + 1) := by
      rw [← List.drop_eq_getElem_cons hlen, List.take_append_drop]
    rw [entries_eq, hat]
    conv => lhs; rw [hsplit]
    rw [hlist]
    simp only [List.append_assoc]
  · intro b
    rw [entries_eq]
    show stash.toList ++ (buckets.setIfInBounds i.toNat b).toList.zipIdx.flatMap entriesOf = _
    rw [Array.toList_setIfInBounds, List.set_eq_take_append_cons_drop, if_pos hlen, hlist]
    simp only [List.append_assoc]

theorem mem_entries {t : Table} (ht : t.Valid logSide) (hL : logSide ≤ 48) {e : Entry} :
    e ∈ t.entries ↔ e ∈ t.stash ∨
      e.bucket.toNat < 2 ^ logSide ∧ e.slot ∈ (t.bucketAt e.bucket).occupants := by
  have hsize : 2 ^ logSide < 2 ^ 64 := Nat.pow_lt_pow_right (by omega) (by omega)
  rw [entries_eq, List.mem_append, Array.mem_toList_iff, List.mem_flatMap]
  apply or_congr_right
  constructor
  · intro hbucket
    rcases hbucket with ⟨⟨b, j⟩, hmem, he⟩
    obtain ⟨hj, rfl⟩ := List.getElem?_eq_some_iff.mp (List.mk_mem_zipIdx_iff_getElem?.mp hmem)
    rcases mem_entriesAt.mp he with ⟨hbucket, hslot⟩
    have hlt : j < 2 ^ logSide := by rw [← ht.size_eq]; simpa using hj
    have hnat : e.bucket.toNat = j := by
      rw [hbucket, UInt64.toNat_ofNat', Nat.mod_eq_of_lt (Nat.lt_trans hlt hsize)]
    refine ⟨hnat.symm ▸ hlt, ?_⟩
    rw [bucketAt_of_lt (by rw [hnat, ht.size_eq]; exact hlt)]
    simpa only [hnat, Array.getElem_toList] using hslot
  · intro hbucket
    rcases hbucket with ⟨hlt, hslot⟩
    have hi : e.bucket.toNat < t.buckets.size := ht.size_eq.symm ▸ hlt
    refine ⟨(t.buckets[e.bucket.toNat], e.bucket.toNat), ?_, ?_⟩
    · rw [List.mk_mem_zipIdx_iff_getElem?]
      simp [hi]
    · refine mem_entriesAt.mpr ⟨UInt64.ofNat_toNat.symm, ?_⟩
      rwa [← bucketAt_of_lt hi]

theorem proper_of_mem_entries {t : Table} (ht : t.Valid logSide) (hL : logSide ≤ 48) {e : Entry}
    (he : e ∈ t.entries) : e.Proper logSide := by
  rcases (mem_entries ht hL).mp he with hstash | ⟨hlt, hslot⟩
  · rcases ht.stash_valid e hstash with ⟨hlt, hused⟩
    exact ⟨hlt, hused⟩
  · exact ⟨hlt, (Bucket.mem_occupants.mp hslot).2⟩

theorem covers_iff {t : Table} (ht : t.Valid logSide) (hL : logSide ≤ 48) {q : Entry}
    (hq : q.bucket.toNat < 2 ^ logSide) :
    t.covers q = true ↔ ∃ e ∈ t.entries, e.bucket = q.bucket ∧ e.slot.covers q.slot = true := by
  unfold covers
  rw [Bool.or_eq_true, Array.any_eq_true', Bucket.covers_iff]
  simp only [Bool.and_eq_true, beq_iff_eq, mem_entries ht hL, or_and_right, exists_or]
  apply or_congr_right
  constructor
  · intro hfound
    rcases hfound with ⟨s, hs, hcovers⟩
    exact ⟨⟨q.bucket, s⟩, ⟨hq, hs⟩, rfl, hcovers⟩
  · intro hfound
    rcases hfound with ⟨e, ⟨_, hslot⟩, hbucket, hcovers⟩
    exact ⟨e.slot, hbucket ▸ hslot, hcovers⟩

theorem entries_vacant (logSide : Nat) : (vacant logSide).entries = [] := by
  have hnone (x : Bucket × Nat) (hx : x ∈ (List.replicate (2 ^ logSide) Bucket.vacant).zipIdx) :
      entriesOf x = [] := by
    have hmem := List.eq_of_mem_replicate (List.fst_mem_of_mem_zipIdx hx)
    rw [entriesOf, hmem, entriesAt, Bucket.occupants_vacant]
    rfl
  rw [entries_eq]
  simp only [vacant, Array.toList_replicate, List.nil_append]
  exact List.flatMap_eq_nil_iff.mpr hnone

theorem valid_vacant (logSide : Nat) : (vacant logSide).Valid logSide :=
  ⟨by simp [vacant], by simp [vacant]⟩

theorem valid_setBucket {t : Table} (ht : t.Valid logSide) (i : UInt64) (b : Bucket) :
    (t.setBucket i b).Valid logSide :=
  ⟨by simpa [setBucket] using ht.size_eq, ht.stash_valid⟩

theorem valid_pushStash {t : Table} (ht : t.Valid logSide) {e : Entry} (he : e.Proper logSide) :
    (t.pushStash e).Valid logSide := by
  refine ⟨ht.size_eq, fun x hx => ?_⟩
  rcases Array.mem_push.mp hx with hx | rfl
  · exact ht.stash_valid x hx
  · exact ⟨he.bucket_lt, he.occupied⟩

theorem entries_pushStash (t : Table) (e : Entry) : (t.pushStash e).entries.Perm (e :: t.entries) := by
  show ((t.stash.push e).toList ++ _).Perm (e :: (t.stash.toList ++ _))
  rw [Array.toList_push, List.append_assoc]
  exact List.perm_middle

/-- What becomes of a placed entry: it is stored, or an entry of its bucket covers it already, or it
takes the place of a victim. -/
theorem place_cases {t : Table} (ht : t.Valid logSide) {e : Entry} (he : e.Proper logSide)
    (chooser : Chooser) :
    (∃ t', t.place e chooser = ((.stored, chooser), t') ∧ t'.Valid logSide ∧
      t'.stash = t.stash ∧ t'.entries.Perm (e :: t.entries)) ∨
    (t.place e chooser = ((.covered, chooser), t) ∧
      ∃ x ∈ t.entries, x.bucket = e.bucket ∧ x.slot.covers e.slot = true) ∨
    (∃ victim t', t.place e chooser = ((.evicted victim, chooser.draw.2), t') ∧
      t'.Valid logSide ∧ t'.stash = t.stash ∧ victim.Proper logSide ∧
      (victim :: t'.entries).Perm (e :: t.entries)) := by
  have hi : e.bucket.toNat < t.buckets.size := ht.size_eq.symm ▸ he.bucket_lt
  rcases t.entries_split hi with ⟨front, back, hentries, hset⟩
  -- the order in which the rest is listed does not matter
  have hmiddle (x : Entry) (l : List Entry) :
      (front ++ (x :: l) ++ back).Perm (x :: (front ++ l ++ back)) := by
    rw [List.append_assoc, List.append_assoc, List.cons_append]
    exact List.perm_middle
  cases hreceive : (t.bucketAt e.bucket).receive e.slot with
  | stored b =>
      obtain ⟨i, hvacant, -, rfl⟩ := Bucket.receive_stored hreceive
      have hslots := Bucket.occupants_set (t.bucketAt e.bucket) i he.occupied
      rw [if_pos hvacant] at hslots
      refine Or.inl ⟨_, by rw [place, hreceive], valid_setBucket ht _ _, rfl, ?_⟩
      rw [hset, hentries]
      exact (((hslots.map _).append_left front).append_right back).trans (hmiddle e _)
  | covered =>
      rcases Bucket.receive_covered hreceive with ⟨s, hs, hcovers⟩
      refine Or.inr (Or.inl ⟨by rw [place, hreceive], ⟨e.bucket, s⟩, ?_, rfl, hcovers⟩)
      rw [hentries]
      simp [mem_entriesAt, hs]
  | full =>
      let i : Fin 4 := Fin.ofNat 4 chooser.draw.1
      have hused := (Bucket.receive_full hreceive i).1
      have hslots := Bucket.occupants_set (t.bucketAt e.bucket) i he.occupied
      rw [if_neg (by rw [hused]; exact Bool.false_ne_true)] at hslots
      refine Or.inr (Or.inr ⟨⟨e.bucket, (t.bucketAt e.bucket)[i]⟩, _, by rw [place, hreceive],
        valid_setBucket ht _ _, rfl, ⟨he.bucket_lt, hused⟩, ?_⟩)
      rw [hset, hentries]
      exact (hmiddle _ _).symm.trans
        ((((hslots.map _).append_left front).append_right back).trans (hmiddle e _))

end Table

end ApproxSet

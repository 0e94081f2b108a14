import ApproxSet.Proofs.Cuckoo.History
import ApproxSet.Proofs.PackedCuckoo.Layout

/-!
# Lookups in a packed filter

A packed filter answers as its source would if all tails were empty, except that fingerprint zero is
always found: a vacant slot packs as zero.
-/

namespace ApproxSet.PackedCuckoo

/-- The lanes of a bucket that hold a fingerprint other than zero are its occupants with that
fingerprint. -/
theorem anyEq_wordOf_iff (b : Bucket) {n : UInt16} (hn : n.toNat < 1024) (hzero : n ≠ 0) :
    Lanes.anyEq (wordOf b) n.toUInt64 = true ↔ ∃ s ∈ b.occupants, s.fingerprint = n := by
  have hpos : n.toNat ≠ 0 := fun h => hzero (UInt16.toNat_inj.mp h)
  have hlane (s : Slot) : (laneOf s).toNat = n.toNat ↔
      s.isVacant = false ∧ s.fingerprint = n := by
    rw [← UInt16.toNat_inj]
    cases hvacant : s.isVacant with
    | true => simp [laneOf, hvacant, hpos.symm]
    | false => simp [laneOf, hvacant]
  rw [Lanes.anyEq_iff _ (by rw [UInt16.toNat_toUInt64]; exact hn), UInt16.toNat_toUInt64]
  simp only [lane_wordOf, hlane, Bucket.mem_occupants, Vector.mem_toList_iff]
  constructor
  · intro hfound
    rcases hfound with ⟨i, hvacant, hfingerprint⟩
    exact ⟨b[i], ⟨Vector.getElem_mem i.isLt, hvacant⟩, hfingerprint⟩
  · intro hfound
    rcases hfound with ⟨s, ⟨hmem, hvacant⟩, hfingerprint⟩
    obtain ⟨i, hi, rfl⟩ := Vector.getElem_of_mem hmem
    exact ⟨⟨i, hi⟩, hvacant, hfingerprint⟩

/-- A stash holds the bucket and the fingerprint of its entries. -/
theorem mem_stashes_iff {f : Cuckoo} (hf : f.Valid) (s : Side) {e : Entry}
    (he : e.bucket.toNat < 2 ^ f.logSide) :
    ((pack f).stashes.get s).contains e.permuted = true ↔
      ∃ x ∈ (f.tables.get s).stash,
        x.bucket = e.bucket ∧ x.slot.fingerprint = e.slot.fingerprint := by
  have hstash : (pack f).stashes.get s = (f.tables.get s).stash.map Entry.permuted := by
    cases s <;> rfl
  rw [hstash, Array.contains_iff_mem, Array.mem_map]
  apply exists_congr
  intro x
  apply and_congr_right
  intro hx
  exact Entry.permuted_eq_iff hf.logSide_le ((hf.table s).stash_valid x hx).1 he

/-- Does some entry of a side have the bucket and the fingerprint of `e`, whatever its tail? -/
def Matched (f : Cuckoo) (s : Side) (e : Entry) : Prop :=
  ∃ x ∈ (f.tables.get s).entries,
    x.bucket = e.bucket ∧ x.slot.fingerprint = e.slot.fingerprint

theorem sideContains_pack_iff {f : Cuckoo} (hf : f.Valid) (hash : UInt64) (s : Side) :
    (pack f).sideContains hash s = true ↔
      (f.entryOf s hash).slot.fingerprint = 0 ∨ Matched f s (f.entryOf s hash) := by
  have hbucket : (f.entryOf s hash).bucket.toNat < 2 ^ f.logSide :=
    Entry.bucket_ofHash_lt _ hf.logSide_le hash
  have hside : (pack f).sideContains hash s =
      (((pack f).stashes.get s).contains (f.entryOf s hash).permuted
        || (f.entryOf s hash).slot.fingerprint == 0
        || Lanes.anyEq (wordOf ((f.tables.get s).bucketAt (f.entryOf s hash).bucket))
            (f.entryOf s hash).slot.fingerprint.toUInt64) := by
    rw [← wordAt_offset hf s hbucket]
    rfl
  generalize f.entryOf s hash = e at hbucket hside
  rw [hside, Bool.or_eq_true, Bool.or_eq_true, mem_stashes_iff hf s hbucket, beq_iff_eq]
  by_cases hzero : e.slot.fingerprint = 0
  · simp [hzero]
  · rw [anyEq_wordOf_iff _ e.slot.fingerprint_lt hzero]
    simp only [hzero, or_false, false_or, Matched, Table.mem_entries (hf.table s) hf.logSide_le,
      or_and_right, exists_or]
    apply or_congr_right
    constructor
    · intro hfound
      rcases hfound with ⟨slot, hslot, hfingerprint⟩
      exact ⟨⟨e.bucket, slot⟩, ⟨hbucket, hslot⟩, rfl, hfingerprint⟩
    · intro hfound
      rcases hfound with ⟨x, ⟨_, hslot⟩, hsame, hfingerprint⟩
      exact ⟨x.slot, hsame ▸ hslot, hfingerprint⟩

/-- A covered entry is matched: coverage compares fingerprints before tails. -/
theorem matched_of_covers {f : Cuckoo} (hf : f.Valid) {s : Side} {e : Entry}
    (he : e.bucket.toNat < 2 ^ f.logSide) (h : (f.tables.get s).covers e = true) :
    Matched f s e := by
  rcases (Table.covers_iff (hf.table s) hf.logSide_le he).mp h with ⟨x, hx, hbucket, hcovers⟩
  simp only [Slot.covers, Bool.and_eq_true, beq_iff_eq] at hcovers
  exact ⟨x, hx, hbucket, hcovers.1.2⟩

theorem contains_pack_iff {f : Cuckoo} (hf : f.Valid) (hash : UInt64) :
    (pack f).contains hash = true ↔
      ∃ s, (f.entryOf s hash).slot.fingerprint = 0 ∨ Matched f s (f.entryOf s hash) := by
  unfold contains
  rw [Bool.or_eq_true, sideContains_pack_iff hf, sideContains_pack_iff hf]
  constructor
  · intro hfound
    exact hfound.elim (fun h => ⟨.left, h⟩) (fun h => ⟨.right, h⟩)
  · intro hfound
    rcases hfound with ⟨s, hs⟩
    cases s
    · exact Or.inl hs
    · exact Or.inr hs

theorem contains_pack_of_contains {f : Cuckoo} (hf : f.Valid) {hash : UInt64}
    (h : f.contains hash = true) : (pack f).contains hash = true := by
  have hbucket (s : Side) : (f.entryOf s hash).bucket.toNat < 2 ^ f.logSide :=
    Entry.bucket_ofHash_lt _ hf.logSide_le hash
  apply (contains_pack_iff hf hash).mpr
  rcases Bool.or_eq_true_iff.mp h with hleft | hright
  · exact ⟨.left, Or.inr (matched_of_covers hf (s := .left) (hbucket .left) hleft)⟩
  · exact ⟨.right, Or.inr (matched_of_covers hf (s := .right) (hbucket .right) hright)⟩

/-- A packed filter finds a hash if and only if, on either side, the fingerprint of the hash is zero
or an entry of the source has its bucket and its fingerprint. So it finds what the source finds. There
is one unless memory for its bytes or for its stashes is refused. -/
theorem contains_ofCuckoo_iff {f : Cuckoo} (hf : f.Valid) (a : Allocator) :
    (∀ p, (ofCuckoo a f).value = .ok p → ∀ hash,
      (p.contains hash = true ↔
        ∃ s, (f.entryOf s hash).slot.fingerprint = 0 ∨ ∃ e ∈ (f.tables.get s).entries,
          e.bucket = (f.entryOf s hash).bucket ∧
            e.slot.fingerprint = (f.entryOf s hash).slot.fingerprint) ∧
      (f.contains hash = true → p.contains hash = true)) ∧
    ∀ e, (ofCuckoo a f).value = .error e →
      ∃ r ∈ requests f, a.allows r = false ∧ e = .allocationRefused r.bytes := by
  constructor
  · intro p hp hash
    rw [eq_pack_of_ofCuckoo hp]
    exact ⟨contains_pack_iff hf hash, contains_pack_of_contains hf⟩
  · intro e he
    rw [ofCuckoo_value] at he
    cases hmemory : a.request (requests f) with
    | ok _ =>
        rw [hmemory] at he
        cases he
    | error refusal =>
        rw [hmemory] at he
        cases he
        exact Allocator.exists_refused hmemory

/-- A hash that differs from the one added in its tail alone is found in the packed filter only. -/
theorem contains_ofCuckoo_of_other_tail :
    let f := (Cuckoo.Call.insert 0x123456789abcdef0).after .standard (Cuckoo.fresh 1)
    f.Valid ∧ f.contains 0x1235000000000000 = false ∧
      ∃ p, (ofCuckoo .standard f).value = .ok p ∧ p.contains 0x123456789abcdef0 = true ∧
        p.contains 0x1235000000000000 = true := by
  intro f
  have hfresh : (Cuckoo.fresh 1).Valid :=
    (Cuckoo.Initial.built .standard 1 .standard rfl).valid
  have hf : f.Valid := (Cuckoo.adds_call .standard hfresh _).valid
  have hadded : f.contains 0x123456789abcdef0 = true := by decide +kernel
  have hother : f.contains 0x1235000000000000 = false := by decide +kernel
  have hmatch : ∃ e ∈ (f.tables.get .left).entries,
      e.bucket = (f.entryOf .left 0x1235000000000000).bucket ∧
        e.slot.fingerprint = (f.entryOf .left 0x1235000000000000).slot.fingerprint := by
    decide +kernel
  have hgranted : Allocator.standard.request (requests f) = .ok () :=
    Allocator.request_eq_ok_iff.mpr (by decide +kernel)
  have hpacked : (ofCuckoo .standard f).value = .ok (pack f) := by
    rw [ofCuckoo_value, hgranted]
    rfl
  have hanswers := (contains_ofCuckoo_iff hf .standard).1 _ hpacked
  exact ⟨hf, hother, pack f, hpacked, (hanswers _).2 hadded,
    (hanswers _).1.mpr ⟨.left, Or.inr hmatch⟩⟩

end ApproxSet.PackedCuckoo

import ApproxSet.Cuckoo.Stored
import ApproxSet.Proofs.Codec.Exact
import ApproxSet.Proofs.Cuckoo.Growth

/-!
# Storing a filter and reading it back

What passes the checks of reading is a valid filter, and a valid filter passes them. So reading gives
back exactly what was written, except that counters are stored in fixed width and wider ones come
back as remainders; everything that answers depend on comes back as it was.
-/

namespace ApproxSet

open Codec

theorem Permutation.exact_codec : Permutation.codec.Exact fun _ => True := by
  apply (exact_word64.vector 4).equiv
  · intro k
    ext i hi
    match i, hi with
    | 0, _ | 1, _ | 2, _ | 3, _ => rfl
  · exact fun _ => rfl
  · simp

theorem Slot.exact_codec : Slot.codec.Exact fun _ => True :=
  exact_word16.equiv (fun _ => rfl) (fun _ => rfl) (fun _ => Iff.rfl)

theorem Entry.exact_codec : Entry.codec.Exact fun _ => True :=
  (exact_word64.pair Slot.exact_codec).equiv (fun _ => rfl) (fun _ => rfl) (fun _ => by simp)

structure Table.Storable (t : Table) : Prop where
  buckets : t.buckets.size < 2 ^ 64
  stash : t.stash.size < 2 ^ 64

theorem Table.exact_codec : Table.codec.Exact Storable := by
  apply ((Slot.exact_codec.vector 4).array.pair Entry.exact_codec.array).equiv
  · exact fun _ => rfl
  · exact fun _ => rfl
  · intro t
    constructor
    · rintro ⟨⟨hbuckets, -⟩, hstash, -⟩
      exact ⟨hbuckets, hstash⟩
    · intro h
      exact ⟨⟨h.buckets, by simp⟩, h.stash, by simp⟩

theorem Both.exact_codec {α : Type} {c : Codec α} {P : α → Prop} (hc : c.Exact P) :
    (Both.codec c).Exact fun b => P b.left ∧ P b.right :=
  (hc.pair hc).equiv (fun _ => rfl) (fun _ => rfl) (fun _ => Iff.rfl)

namespace Cuckoo

/-- Both stashes can be stored. The number of buckets never exceeds `2 ^ 48`. -/
structure Storable (f : Cuckoo) : Prop where
  left : f.tables.left.stash.size < 2 ^ 64
  right : f.tables.right.stash.size < 2 ^ 64

instance (f : Cuckoo) : Decidable f.Storable :=
  decidable_of_iff (f.tables.left.stash.size < 2 ^ 64 ∧ f.tables.right.stash.size < 2 ^ 64)
    ⟨fun h => ⟨h.1, h.2⟩, fun h => ⟨h.left, h.right⟩⟩

/-- A filter with its counters cut at the width in which they are stored. -/
def cutCounters (f : Cuckoo) : Cuckoo :=
  { f with
    chooser := { f.chooser with left := f.chooser.left % 256 ^ 4 }
    occupied := f.occupied % 256 ^ 8
    generation := f.generation % 256 ^ 4 }

theorem StoredChooser.exact_codec :
    StoredChooser.codec.Exact fun c => c.left < 2 ^ 32 ∧ c.width < 2 ^ 32 :=
  (exact_word64.pair (exact_word64.pair (exact_word32.pair
    ((exact_nat 4).pair (exact_nat 4))))).equiv (fun _ => rfl) (fun _ => rfl) (fun _ => by simp)

/-- Both stashes and all counters can be stored. -/
structure Fits (f : Cuckoo) : Prop where
  storable : f.Storable
  chooser_lt : f.chooser.left < 2 ^ 32
  occupied_lt : f.occupied < 2 ^ 64
  generation_lt : f.generation < 2 ^ 32

namespace Record

/-- What a record must be to be written in full. -/
structure Fits (r : Record) : Prop where
  left : r.sides.left.2.Storable
  right : r.sides.right.2.Storable
  logSide_lt : r.logSide < 2 ^ 32
  chooser_lt : r.chooser.left < 2 ^ 32
  width_lt : r.chooser.width < 2 ^ 32
  occupied_lt : r.occupied < 2 ^ 64
  generation_lt : r.generation < 2 ^ 32

theorem exact_codec : codec.Exact Fits := by
  have hside := Both.exact_codec (Permutation.exact_codec.pair Table.exact_codec)
  have hentropy := Both.exact_codec Permutation.exact_codec
  apply (hside.pair ((exact_nat 4).pair (StoredChooser.exact_codec.pair
    (hentropy.pair ((exact_nat 8).pair (exact_nat 4)))))).equiv
  · exact fun _ => rfl
  · exact fun _ => rfl
  · intro r
    constructor
    · rintro ⟨⟨⟨-, hleft⟩, -, hright⟩, hlog, ⟨hchooser, hwidth⟩, -, hoccupied, hgeneration⟩
      exact ⟨hleft, hright, hlog, hchooser, hwidth, hoccupied, hgeneration⟩
    · intro h
      exact ⟨⟨⟨trivial, h.left⟩, trivial, h.right⟩, h.logSide_lt, ⟨h.chooser_lt, h.width_lt⟩,
        ⟨trivial, trivial⟩, h.occupied_lt, h.generation_lt⟩

theorem checkSide_eq_ok_iff (logSide : Nat) (p : Permutation) (side : Permutation × Table) :
    checkSide logSide p side = .ok () ↔ side.2.Valid logSide ∧ side.1 = p := by
  have hstash : (side.2.stash.any fun e =>
      decide (e.bucket.toNat ≥ 2 ^ logSide) || e.slot.isVacant) = false ↔
        ∀ e ∈ side.2.stash, e.bucket.toNat < 2 ^ logSide ∧ e.slot.isVacant = false := by
    rw [Array.any_eq_false']
    simp
  unfold checkSide
  by_cases hsize : side.2.buckets.size = 2 ^ logSide
  · rw [if_neg (not_not.mpr hsize)]
    split
    · rename_i hany
      constructor
      · intro h
        cases h
      · intro hchecked
        rcases hchecked with ⟨hvalid, -⟩
        rw [hstash.mpr hvalid.stash_valid] at hany
        cases hany
    · rename_i hany
      have hvalid : side.2.Valid logSide :=
        ⟨hsize, hstash.mp (Bool.eq_false_iff.mpr hany)⟩
      split
      · rename_i hp
        simp [hp]
      · rename_i hp
        simp [hvalid, not_not.mp hp]
  · rw [if_pos hsize]
    constructor
    · intro h
      cases h
    · intro hchecked
      rcases hchecked with ⟨hvalid, -⟩
      exact absurd hvalid.size_eq hsize

def toCuckoo (r : Record) : Cuckoo :=
  ⟨r.logSide, r.entropy, ⟨r.sides.left.2, r.sides.right.2⟩, r.chooser.toChooser, r.occupied,
    r.generation⟩

theorem accept_eq (r : Record) :
    accept r =
      if r.logSide = 0 ∨ r.logSide > maxLogSide then .error (.cuckooSideSize r.logSide)
      else
        (checkSide r.logSide r.entropy.left r.sides.left >>= fun _ =>
          checkSide r.logSide r.entropy.right r.sides.right >>= fun _ =>
            if r.chooser.width ≠ 2 then .error (.drawWidth r.chooser.width)
            else .ok r.toCuckoo) := by
  unfold accept
  by_cases hlog : r.logSide = 0 ∨ r.logSide > maxLogSide
  · rw [if_pos hlog, if_pos hlog]
    rfl
  · rw [if_neg hlog, if_neg hlog]
    by_cases hwidth : r.chooser.width ≠ 2
    · simp only [if_pos hwidth]
      rfl
    · simp only [if_neg hwidth]
      rfl

/-- Reading accepts exactly the records of valid filters. -/
theorem accept_eq_ok_iff (r : Record) (f : Cuckoo) :
    accept r = .ok f ↔
      f.Valid ∧ r.sides.left.1 = r.entropy.left ∧ r.sides.right.1 = r.entropy.right ∧
        r.chooser.width = 2 ∧ f = r.toCuckoo := by
  rw [accept_eq]
  constructor
  · intro h
    split at h
    · cases h
    · rename_i hlog
      cases hleft : checkSide r.logSide r.entropy.left r.sides.left with
      | error d =>
          rw [hleft] at h
          cases h
      | ok _ =>
          cases hright : checkSide r.logSide r.entropy.right r.sides.right with
          | error d =>
              rw [hleft, hright] at h
              cases h
          | ok _ =>
              rw [hleft, hright, ok_bind, ok_bind] at h
              rcases (checkSide_eq_ok_iff _ _ _).mp hleft with ⟨hleft, hl⟩
              rcases (checkSide_eq_ok_iff _ _ _).mp hright with ⟨hright, hr⟩
              split at h
              · cases h
              · rename_i hwidth
                cases h
                rcases not_or.mp hlog with ⟨hpos, hle⟩
                exact ⟨⟨Nat.pos_of_ne_zero hpos, Nat.not_lt.mp hle, hleft, hright⟩, hl, hr,
                  not_not.mp hwidth, rfl⟩
  · intro hfields
    rcases hfields with ⟨hf, hl, hr, hwidth, rfl⟩
    have hlog : ¬ (r.logSide = 0 ∨ r.logSide > maxLogSide) := by
      have hpos : 1 ≤ r.logSide := hf.logSide_pos
      have hle : r.logSide ≤ maxLogSide := hf.logSide_le
      omega
    have hleft := (checkSide_eq_ok_iff r.logSide r.entropy.left r.sides.left).mpr
      ⟨hf.left_valid, hl⟩
    have hright := (checkSide_eq_ok_iff r.logSide r.entropy.right r.sides.right).mpr
      ⟨hf.right_valid, hr⟩
    rw [if_neg hlog, hleft, hright, ok_bind, ok_bind, if_neg (not_not.mpr hwidth)]

end Record

theorem exact_codec : codec.Exact fun f => f.Valid ∧ f.Fits := by
  apply Record.exact_codec.refine
  intro r f
  rw [Record.accept_eq_ok_iff]
  constructor
  · rintro ⟨hr, hvalid, hleft, hright, hwidth, rfl⟩
    refine ⟨⟨hvalid, ⟨hr.left.stash, hr.right.stash⟩, hr.chooser_lt, hr.occupied_lt,
      hr.generation_lt⟩, ?_⟩
    rcases r with ⟨⟨⟨pl, tl⟩, pr, tr⟩, logSide, ⟨state, increment, word, left, width⟩,
      ⟨el, er⟩, occupied, generation⟩
    simp only at hleft hright hwidth
    subst hleft hright hwidth
    rfl
  · rintro ⟨⟨hvalid, hfits⟩, rfl⟩
    have hlog : 2 ^ f.logSide < 2 ^ 64 :=
      Nat.lt_of_le_of_lt (Nat.pow_le_pow_right Nat.two_pos hvalid.logSide_le) (by decide)
    have hwidth : 2 < 2 ^ 32 := by decide
    refine ⟨⟨?_, ?_, ?_, hfits.chooser_lt, hwidth, hfits.occupied_lt, hfits.generation_lt⟩,
      hvalid, rfl, rfl, rfl, rfl⟩
    · exact ⟨hvalid.left_valid.size_eq ▸ hlog, hfits.storable.left⟩
    · exact ⟨hvalid.right_valid.size_eq ▸ hlog, hfits.storable.right⟩
    · exact Nat.lt_of_le_of_lt hvalid.logSide_le (by decide)

/-- Whatever bytes are read, a filter that is accepted is valid. -/
theorem valid_of_read {bytes : List UInt8} {f : Cuckoo} (h : codec.read bytes = .ok f) :
    f.Valid := by
  unfold Codec.read at h
  cases hdecode : codec.decode bytes with
  | error e =>
      rw [hdecode] at h
      cases h
  | ok read =>
      rcases read with ⟨g, rest⟩
      rw [hdecode] at h
      cases h
      exact ((exact_codec _ _ _).mp hdecode).1.1

theorem valid_cutCounters {f : Cuckoo} (hf : f.Valid) : f.cutCounters.Valid :=
  ⟨hf.logSide_pos, hf.logSide_le, hf.left_valid, hf.right_valid⟩

theorem fits_cutCounters {f : Cuckoo} (hstash : f.Storable) : f.cutCounters.Fits :=
  ⟨⟨hstash.left, hstash.right⟩, Nat.mod_lt _ (by decide), Nat.mod_lt _ (by decide),
    Nat.mod_lt _ (by decide)⟩

/-- Counters are written without what is cut. -/
theorem encode_cutCounters (f : Cuckoo) : codec.encode f.cutCounters = codec.encode f := by
  show Record.codec.encode (.ofCuckoo f.cutCounters) = Record.codec.encode (.ofCuckoo f)
  simp only [Record.codec, StoredChooser.codec, Codec.iso, Codec.pair, Codec.nat, Record.ofCuckoo,
    StoredChooser.ofChooser, cutCounters, littleEndian_mod]

/-- A valid filter is read back from its own bytes, with its counters cut. -/
theorem read_encode {f : Cuckoo} (hf : f.Valid) (hstash : f.Storable) :
    codec.read (codec.encode f) = .ok f.cutCounters := by
  have h := exact_codec.reads ⟨valid_cutCounters hf, fits_cutCounters hstash⟩ []
  rw [List.append_nil, encode_cutCounters] at h
  unfold Codec.read
  rw [h]
  rfl

end Cuckoo

end ApproxSet

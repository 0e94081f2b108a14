import ApproxSet.PackedCuckoo.Stored
import ApproxSet.Proofs.Codec.Exact
import ApproxSet.Proofs.Cuckoo.Stored
import ApproxSet.Proofs.Rate
import ApproxSet.ScalableBloom.Stored
import ApproxSet.XorFilter.Stored

/-!
# Stored filters, both ways

What is read of each of the five filters is exactly what is written: the filters accepted are the
valid ones whose numbers fit in the words that hold them, and no two byte strings are read as the
same filter.
-/

namespace ApproxSet

open Codec

/-! ## Block filters -/

theorem Block.exact_codec : Block.codec.Exact fun _ => True :=
  (exact_word32.vector 8).equiv (fun _ => rfl) (fun _ => rfl) (fun _ => by simp)

theorem Bloom.exact_codec : Bloom.codec.Exact Valid := by
  apply Block.exact_codec.array.refine
  intro blocks f
  unfold accept
  constructor
  · rintro ⟨-, h⟩
    split at h
    · rename_i hvalid
      cases h
      exact ⟨hvalid, rfl⟩
    · cases h
  · rintro ⟨hvalid, rfl⟩
    have hsize : f.blocks.size < 2 ^ 64 := Nat.lt_trans hvalid.2 (by decide)
    exact ⟨⟨hsize, fun _ _ => trivial⟩, if_pos hvalid⟩

/-! ## Xor filters -/

namespace XorFilter

/-- The size of the table can be written. The window is no larger. -/
def Fits (f : XorFilter) : Prop := f.table.size < 2 ^ 64

theorem accept_eq_ok_iff (f g : XorFilter) : accept f = .ok g ↔ g.Valid ∧ f = g := by
  unfold accept
  constructor
  · intro h
    split at h
    · rename_i hvalid
      cases h
      exact ⟨hvalid, rfl⟩
    · cases h
  · rintro ⟨hvalid, rfl⟩
    exact if_pos hvalid

theorem exact_codec : codec.Exact fun f => f.Valid ∧ f.Fits := by
  apply (exact_word8.array.pair ((exact_nat 8).pair exact_word64)).refine
  rintro ⟨table, window, seed⟩ f
  rw [accept_eq_ok_iff]
  constructor
  · rintro ⟨⟨⟨hsize, -⟩, -⟩, hvalid, rfl⟩
    exact ⟨⟨hvalid, hsize⟩, rfl⟩
  · rintro ⟨⟨hvalid, hfits⟩, heq⟩
    cases heq
    have hwindow : f.window < 256 ^ 8 := Nat.lt_of_le_of_lt hvalid.2.2 hfits
    exact ⟨⟨⟨hfits, fun _ _ => trivial⟩, hwindow, trivial⟩, hvalid, rfl⟩

end XorFilter

/-! ## Scalable Bloom filters -/

namespace ScalableBloom

structure Fits (f : ScalableBloom) : Prop where
  baseCapacity_lt : f.baseCapacity < 2 ^ 64
  countdown_lt : f.countdown < 2 ^ 64
  count_lt : f.count < 2 ^ 64

theorem accept_eq_ok_iff (fields : Fields) (f : ScalableBloom) :
    accept fields = .ok f ↔
      (f.older.size + 1 ≤ maxGenerations ∧ f.baseCapacity ≠ 0 ∧ Rate.Valid f.rate) ∧
        fields = f.toFields := by
  rcases fields with ⟨levels, baseCapacity, rate, countdown, count⟩
  unfold accept
  constructor
  · intro h
    cases hback : levels.back? with
    | none =>
        simp only [hback] at h
        cases h
    | some newest =>
        obtain ⟨older, rfl⟩ := Array.back?_eq_some_iff.mp hback
        simp only [hback, Array.pop_push] at h
        split at h
        · cases h
        · rename_i hsize
          split at h
          · cases h
          · rename_i hbase
            split at h
            · rename_i hrate
              cases h
              rw [Array.size_push] at hsize
              exact ⟨⟨Nat.not_lt.mp hsize, hbase, hrate⟩, rfl⟩
            · cases h
  · rintro ⟨⟨hsize, hbase, hrate⟩, heq⟩
    cases heq
    have hback : f.levels.back? = some f.newest := Array.back?_push
    have hpop : f.levels.pop = f.older := Array.pop_push
    have hlevels : ¬ f.levels.size > maxGenerations := by
      rw [levels, Array.size_push]
      exact Nat.not_lt.mpr hsize
    simp only [hback, hpop]
    rw [if_neg hlevels, if_neg hbase, if_pos hrate]

/-- The fields with the rate as bits. -/
def bitsCodec : Codec (Array Bloom × Nat × UInt64 × Nat × Nat) :=
  Bloom.codec.array.pair ((Codec.nat 8).pair (word64.pair ((Codec.nat 8).pair (Codec.nat 8))))

theorem codec_eq :
    codec = bitsCodec.refine
      (fun (levels, base, bits, rest) => accept (levels, base, Float.ofBits bits, rest))
      (fun f => (f.levels, f.baseCapacity, f.rate.toBits, f.countdown, f.count)) := by
  unfold codec bitsCodec Codec.refine Codec.pair double Codec.iso
  simp only [bind_assoc, pure_bind]
  rfl

theorem exact_codec : codec.Exact fun f => f.Valid ∧ f.Fits := by
  rw [codec_eq]
  apply (Bloom.exact_codec.array.pair ((exact_nat 8).pair
    (exact_word64.pair ((exact_nat 8).pair (exact_nat 8))))).refine
  rintro ⟨levels, base, bits, countdown, count⟩ f
  simp only [accept_eq_ok_iff, toFields, Prod.mk.injEq]
  constructor
  · rintro ⟨⟨⟨-, hlevels⟩, hbase, -, hcountdown, hcount⟩, ⟨hsize, hpos, hrate⟩, rfl, rfl, hbits,
      rfl, rfl⟩
    have hvalid : ∀ b ∈ f.older, b.Valid := fun b hb => hlevels b (Array.mem_push_of_mem _ hb)
    have hnewest : f.newest.Valid := hlevels _ Array.mem_push_self
    have hkept : bits = f.rate.toBits := by
      rw [← hbits] at hrate ⊢
      exact (Rate.toBits_ofBits hrate).symm
    exact ⟨⟨⟨hvalid, hnewest, hsize, hpos, hrate⟩, hbase, hcountdown, hcount⟩, rfl, rfl, hkept,
      rfl, rfl⟩
  · rintro ⟨⟨hvalid, hfits⟩, rfl, rfl, rfl, rfl, rfl⟩
    have hsize : f.levels.size < 2 ^ 64 := by
      have hle := hvalid.generations_le
      unfold maxGenerations at hle
      rw [levels, Array.size_push]
      omega
    have hlevels : ∀ b ∈ f.levels, b.Valid := by
      intro b hb
      rcases Array.mem_push.mp hb with hb | rfl
      · exact hvalid.older_valid b hb
      · exact hvalid.newest_valid
    exact ⟨⟨⟨hsize, hlevels⟩, hfits.baseCapacity_lt, trivial, hfits.countdown_lt, hfits.count_lt⟩,
      ⟨hvalid.generations_le, hvalid.baseCapacity_ne_zero, hvalid.rate_valid⟩, rfl, rfl,
      Float.ofBits_toBits f.rate, rfl, rfl⟩

end ScalableBloom

/-! ## Packed cuckoo filters -/

namespace PackedCuckoo

/-- Both stashes can be stored. The number of bytes never exceeds `10 * 2 ^ 48`. -/
structure Fits (f : PackedCuckoo) : Prop where
  left : f.stashes.left.size < 2 ^ 64
  right : f.stashes.right.size < 2 ^ 64

theorem accept_eq_ok_iff (f g : PackedCuckoo) : accept f = .ok g ↔ g.Valid ∧ f = g := by
  unfold accept
  constructor
  · intro h
    split at h
    · cases h
    · rename_i hlog
      split at h
      · cases h
      · rename_i hsize
        cases h
        rcases not_or.mp hlog with ⟨hpos, hle⟩
        exact ⟨⟨Nat.pos_of_ne_zero hpos, Nat.not_lt.mp hle, not_not.mp hsize⟩, rfl⟩
  · rintro ⟨hvalid, rfl⟩
    have hpos := hvalid.logSide_pos
    have hle := hvalid.logSide_le
    rw [if_neg (by omega), if_neg (not_not.mpr hvalid.size_eq)]

theorem exact_codec : codec.Exact fun f => f.Valid ∧ f.Fits := by
  have hentropy := Both.exact_codec Permutation.exact_codec
  apply (hentropy.pair ((exact_nat 4).pair
    (exact_word8.array.pair (Both.exact_codec exact_word64.array)))).refine
  rintro ⟨entropy, logSide, data, stashes⟩ f
  rw [accept_eq_ok_iff]
  constructor
  · rintro ⟨⟨-, -, -, ⟨hleft, -⟩, hright, -⟩, hvalid, rfl⟩
    exact ⟨⟨hvalid, hleft, hright⟩, rfl⟩
  · rintro ⟨⟨hvalid, hfits⟩, heq⟩
    cases heq
    have hlog : f.logSide < 256 ^ 4 := Nat.lt_of_le_of_lt hvalid.logSide_le (by decide)
    have hdata : f.data.size < 2 ^ 64 := by
      have hpow : 2 ^ f.logSide ≤ 2 ^ 48 := Nat.pow_le_pow_right Nat.two_pos hvalid.logSide_le
      rw [hvalid.size_eq, bucketBytes]
      omega
    exact ⟨⟨⟨trivial, trivial⟩, hlog, ⟨hdata, by simp⟩, ⟨hfits.left, by simp⟩, hfits.right,
      by simp⟩, hvalid, rfl⟩

end PackedCuckoo

/-! ## All five -/

/-- A filter of any of the five kinds is read from some bytes, with a rest left over, if and only if
it is valid, its numbers fit, and the bytes are those written for it in front of the rest. -/
theorem decode_eq_ok_iff_encode :
    (∀ (f : Bloom) (bytes rest : List UInt8), Bloom.codec.decode bytes = .ok (f, rest) ↔
      f.Valid ∧ bytes = Bloom.codec.encode f ++ rest) ∧
    (∀ (f : XorFilter) (bytes rest : List UInt8), XorFilter.codec.decode bytes = .ok (f, rest) ↔
      (f.Valid ∧ f.Fits) ∧ bytes = XorFilter.codec.encode f ++ rest) ∧
    (∀ (f : ScalableBloom) (bytes rest : List UInt8),
      ScalableBloom.codec.decode bytes = .ok (f, rest) ↔
        (f.Valid ∧ f.Fits) ∧ bytes = ScalableBloom.codec.encode f ++ rest) ∧
    (∀ (f : Cuckoo) (bytes rest : List UInt8), Cuckoo.codec.decode bytes = .ok (f, rest) ↔
      (f.Valid ∧ f.Fits) ∧ bytes = Cuckoo.codec.encode f ++ rest) ∧
    ∀ (f : PackedCuckoo) (bytes rest : List UInt8),
      PackedCuckoo.codec.decode bytes = .ok (f, rest) ↔
        (f.Valid ∧ f.Fits) ∧ bytes = PackedCuckoo.codec.encode f ++ rest :=
  ⟨Bloom.exact_codec, XorFilter.exact_codec, ScalableBloom.exact_codec, Cuckoo.exact_codec,
    PackedCuckoo.exact_codec⟩

/-- A filter whose slots are all taken is read back in front of three more bytes. -/
theorem decode_encode_of_full_slots :
    let row : Bucket := Vector.replicate 4 (Slot.pack 1 Tail.empty)
    let f : Cuckoo :=
      ⟨1, .standard, ⟨⟨#[row, row], #[]⟩, ⟨#[row, row], #[]⟩⟩, Sampler.start 2, 16, 0⟩
    f.Valid ∧ Cuckoo.codec.decode (Cuckoo.codec.encode f ++ [7, 8, 9]) = .ok (f, [7, 8, 9]) := by
  intro row f
  have hvalid : f.Valid := ⟨by decide, by decide, ⟨rfl, by simp [f]⟩, ⟨rfl, by simp [f]⟩⟩
  have hfits : f.Fits := ⟨⟨by decide, by decide⟩, by decide, by decide, by decide⟩
  exact ⟨hvalid, (decode_eq_ok_iff_encode.2.2.2.1 f _ _).mpr ⟨⟨hvalid, hfits⟩, rfl⟩⟩

end ApproxSet

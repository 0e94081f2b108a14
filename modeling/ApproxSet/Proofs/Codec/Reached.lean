import ApproxSet.Proofs.Codec.Filters
import ApproxSet.Proofs.Cuckoo.Room
import ApproxSet.Proofs.PackedCuckoo.Layout
import ApproxSet.Proofs.Sampler
import ApproxSet.Proofs.ScalableBloom.Countdown
import ApproxSet.Proofs.XorFilter.Bounds

/-!
# Filters that can be stored

Counters are written in words of fixed width. Those of a filter that was built here, and changed by its
own operations only, stay below the end of their range, so such a filter is read back as it was.
-/

namespace ApproxSet

/-! ## Cuckoo filters -/

namespace Cuckoo

/-- No more generations than doublings, and no more undrawn bits than a word has. -/
structure Bounded (f : Cuckoo) : Prop where
  valid : f.Valid
  generation_le : f.generation ≤ f.logSide
  left_le : f.chooser.left ≤ 32

theorem left_draw_le {c : Chooser} (h : c.left ≤ 32) : c.draw.2.left ≤ 32 := by
  have hdraw := c.left_draw (by decide)
  split at hdraw <;> omega

theorem left_place_le {f : Cuckoo} (h : f.chooser.left ≤ 32) (s : Side) (e : Entry) :
    (f.place s e).2.chooser.left ≤ 32 := by
  rw [place_eq]
  unfold Table.place
  dsimp only
  split
  · exact h
  · exact h
  · exact left_draw_le h

theorem left_settle_le (moves : Nat) {f : Cuckoo} (h : f.chooser.left ≤ 32) (s : Side) (e : Entry) :
    (settle moves f s e).value.chooser.left ≤ 32 := by
  induction moves generalizing f s e with
  | zero =>
      have hplace := left_place_le h s e
      rcases hg : f.place s e with ⟨placement, g⟩
      rw [hg] at hplace
      cases placement with
      | stored => exact settle_of_stored hg 0 ▸ hplace
      | covered => exact settle_of_covered hg 0 ▸ hplace
      | evicted victim => exact settle_zero_of_evicted hg ▸ hplace
  | succ moves ih =>
      have hplace := left_place_le h s e
      rcases hg : f.place s e with ⟨placement, g⟩
      rw [hg] at hplace
      cases placement with
      | stored => exact settle_of_stored hg _ ▸ hplace
      | covered => exact settle_of_covered hg _ ▸ hplace
      | evicted victim =>
          rw [settle_succ_of_evicted hg]
          exact ih hplace s.other _

theorem left_absorbed_le (old : Nat) {f : Cuckoo} (h : f.chooser.left ≤ 32) (s : Side) (stem : Stem) :
    (absorbed old f s stem).chooser.left ≤ 32 :=
  List.foldlRecOn (motive := fun g : Cuckoo => g.chooser.left ≤ 32) _ _ h
    fun _ hg _ _ => left_settle_le maxMoves hg s _

theorem left_grow_le {a : Allocator} {f f' : Cuckoo} (h : f.chooser.left ≤ 32)
    (hgrow : (f.grow a).value = .ok f') : f'.chooser.left ≤ 32 := by
  obtain ⟨-, rfl⟩ := grow_ok hgrow
  have hdoubled : f.doubled.chooser.left ≤ 32 := h
  exact List.foldlRecOn (motive := fun g : Cuckoo => g.chooser.left ≤ 32) _ _ hdoubled
    fun _ hg (side, stem) _ => left_absorbed_le _ hg side stem

theorem invariant_bounded : Invariant Bounded where
  valid hf := hf.valid
  grow {a f f'} hf h := by
    have hlog := logSide_grow hf.valid h
    have hgeneration := generation_grow hf.valid h
    have hle := hf.generation_le
    exact ⟨(outgrows_grow hf.valid h).valid, by omega, left_grow_le hf.left_le h⟩
  put hash hf _ := by
    have hput := counts_put hf.valid hash
    refine ⟨hput.valid, ?_, left_settle_le maxMoves hf.left_le _ _⟩
    rw [hput.shape.generation, hput.shape.logSide]
    exact hf.generation_le
  absorbed s stem hf _ hold hstem := by
    have habsorbed := counts_absorbed hf.valid hold s hstem
    refine ⟨habsorbed.valid, ?_, left_absorbed_le _ hf.left_le s stem⟩
    rw [habsorbed.shape.generation, habsorbed.shape.logSide]
    exact hf.generation_le
  cutCounters hf :=
    ⟨valid_cutCounters hf.valid, Nat.le_trans (Nat.mod_le _ _) hf.generation_le,
      Nat.le_trans (Nat.mod_le _ _) hf.left_le⟩

theorem Reached.bounded {f : Cuckoo} (hf : Reached f) : Bounded f :=
  invariant_bounded.reached
    (fun h => by
      have hvalid := valid_ofBytes h
      obtain ⟨-, rfl⟩ := vacant_ok h
      exact ⟨hvalid, Nat.zero_le _, Nat.zero_le _⟩) hf

/-- Stashed entries are counted, so there are few of them. -/
theorem Reached.fits {f : Cuckoo} (hf : Reached f) : f.Fits := by
  have hbounded := hf.bounded
  have hlog : f.logSide ≤ 48 := hbounded.valid.logSide_le
  have hgeneration := hbounded.generation_le
  have hleft := hbounded.left_le
  rcases occupied_eq_of_reached hf with ⟨hoccupied, hlt⟩
  unfold stashSize at hoccupied
  exact ⟨⟨by omega, by omega⟩, by omega, by omega, by omega⟩

theorem Reached.reads {f : Cuckoo} (hf : Reached f) : codec.Reads f f :=
  exact_codec.reads ⟨hf.bounded.valid, hf.fits⟩

end Cuckoo

/-! ## Packed cuckoo filters -/

namespace PackedCuckoo

theorem fits_ofCuckoo {a : Allocator} {f : Cuckoo} {p : PackedCuckoo} (hf : f.Storable)
    (h : (ofCuckoo a f).value = .ok p) : p.Fits := by
  rw [eq_pack_of_ofCuckoo h]
  constructor
  · exact Array.size_map.symm ▸ hf.left
  · exact Array.size_map.symm ▸ hf.right

theorem reads_of_reached {a : Allocator} {f : Cuckoo} {p : PackedCuckoo} (hf : Cuckoo.Reached f)
    (h : (ofCuckoo a f).value = .ok p) : codec.Reads p p :=
  exact_codec.reads ⟨valid_ofCuckoo hf.bounded.valid h, fits_ofCuckoo hf.fits.storable h⟩

end PackedCuckoo

/-! ## Xor filters -/

namespace XorFilter

/-- Memory for the table was granted, and sizes are signed. -/
theorem fits_ofHashes {a : Allocator} {hashes : List UInt64} {seed : UInt64} {f : XorFilter}
    (h : (ofHashes a hashes seed).value = .ok f) : f.Fits := by
  rcases exists_solves_of_ofHashes h with ⟨attempt, hsolves⟩
  exact Nat.lt_trans hsolves.size_lt (by decide)

theorem reads_of_ofHashes {a : Allocator} {hashes : List UInt64} {seed : UInt64} {f : XorFilter}
    (h : (ofHashes a hashes seed).value = .ok f) : codec.Reads f f :=
  exact_codec.reads ⟨valid_ofHashes h, fits_ofHashes h⟩

end XorFilter

/-! ## Scalable Bloom filters -/

namespace ScalableBloom

variable {m : Rate.Model} {f₀ : ScalableBloom}

theorem valid_history {f : ScalableBloom} (hf : f.Valid) (m : Rate.Model) (calls : History) :
    (calls.after m f).Valid := by
  induction calls generalizing f with
  | nil => exact hf
  | cons call calls ih =>
      rcases call with ⟨a, c⟩
      apply ih
      cases c with
      | insert hash => exact valid_insertBy hf m a hash
      | insert32 hash => exact valid_insertBy hf m a (ShortHash.toLowHalf hash)
      | grow => exact valid_growBy hf m a

theorem Paces.fits {calls : History} (h : Paces m f₀ calls) (hm : Rate.Saturates m) :
    (calls.after m f₀).Fits := by
  have hcapacity := h.accounts.capacity_lt
  have hcountdown := h.accounts.countdown_add
  have hcount := h.count_lt hm
  exact ⟨h.accounts.baseCapacity_lt, by omega, by omega⟩

theorem reads_of_history (hm : Rate.Saturates m) {a : Allocator} {count : Nat} {rate : Float}
    (hcount : count < 2 ^ 64) (h : ofCountBy m a count rate = .ok (some f₀)) (calls : History) :
    codec.Reads (calls.after m f₀) (calls.after m f₀) := by
  rcases filledUp_ofCountBy hcount h with ⟨hfirst, hbase⟩
  have hpaces := paces_of_filledUp hfirst hbase (filled_ofCountBy h) calls
  exact exact_codec.reads ⟨valid_history (valid_ofCountBy h) m calls, hpaces.fits hm⟩

/-- The filter in use can be stored and read after any calls. -/
theorem reads_of_ofCount {a : Allocator} {count : Nat} {rate : Float} (hcount : count < 2 ^ 64)
    (h : ofCount a count rate = .ok (some f₀)) (calls : History) :
    codec.Reads (calls.after Rate.poisson f₀) (calls.after Rate.poisson f₀) :=
  reads_of_history Rate.saturates_poisson hcount h calls

end ScalableBloom

end ApproxSet

import ApproxSet.Proofs.Allocator
import ApproxSet.Proofs.ScalableBloom.Bounds

/-!
# New generations

The size of a generation comes from a model of the rate and its memory from an allocator. Where a hash
goes depends on neither, so both are arbitrary here; the filter in use has the Poisson model.

What calls do to a filter is told by two moves: a hash is recorded in the newest generation, or a new
generation starts above it.
-/

namespace ApproxSet

open Codec (bind_eq_ok_iff)

namespace Bloom

variable {a : Allocator}

/-- The standard allocator grants what a block filter of any size asks for. -/
theorem ofBytes_standard {bytes : Nat} {f : Bloom} (h : ofBytes a bytes = .ok f) :
    ofBytes .standard bytes = .ok f := by
  obtain ⟨hbytes, rfl⟩ := eq_empty_of_ofBytes h
  have hsize : Sizing.blockBytes * max 1 (bytes / Sizing.blockBytes) < min (2 ^ 50) (2 ^ 63) := by
    unfold Sizing.maxBlockFilterBytes Sizing.blockBytes at *
    omega
  have hgranted : Allocator.standard.request
      [.fresh 0 (Sizing.blockBytes * max 1 (bytes / Sizing.blockBytes))] = .ok () :=
    Allocator.request_upTo (List.forall_mem_singleton.mpr hsize)
  unfold ofBytes
  rw [if_neg (Nat.not_lt.mpr hbytes)]
  show (Allocator.standard.request _ >>= fun _ => _) = _
  rw [hgranted]
  rfl

theorem ofCountBy_standard {m : Rate.Model} {count : Nat} {rate : Float} {f : Bloom}
    (h : ofCountBy m a count rate = .ok f) : ofCountBy m .standard count rate = .ok f := by
  obtain ⟨bytes, hbytes, hsized⟩ := bind_eq_ok_iff.mp h
  exact bind_eq_ok_iff.mpr ⟨bytes, hbytes, ofBytes_standard hsized⟩

theorem ofCountBy_eq_empty {m : Rate.Model} {count : Nat} {rate : Float} {f : Bloom}
    (h : ofCountBy m a count rate = .ok f) : ∃ blocks, 0 < blocks ∧ f = empty blocks := by
  obtain ⟨bytes, -, hsized⟩ := bind_eq_ok_iff.mp h
  exact ⟨_, Nat.lt_of_lt_of_le Nat.one_pos (Nat.le_max_left 1 _), (eq_empty_of_ofBytes hsized).2⟩

end Bloom

namespace ScalableBloom

variable {m : Rate.Model} {a : Allocator} {f g : ScalableBloom}

/-- A block filter of the size chosen for a generation, with nothing in it. -/
def freshLevel (m : Rate.Model) (f : ScalableBloom) (generation : Nat) : Except FilterError Bloom :=
  Bloom.ofCountBy m .standard (f.capacityOf generation) (Rate.ofGeneration f.rate generation)

theorem freshLevel_of_nextLevel {bytes : Nat} {level : Bloom}
    (h : f.nextLevel m a = .ok (bytes, level)) : f.freshLevel m (f.generation + 1) = .ok level := by
  obtain ⟨hbytes, hsized⟩ := nextLevel_ok h
  exact bind_eq_ok_iff.mpr ⟨bytes, hbytes, Bloom.ofBytes_standard hsized⟩

/-- Growth that is done has started a fresh generation, whose capacity fits in 64 bits. -/
theorem growBy_done (h : (f.growBy m a).value = .done g) :
    f.capacityOf (f.generation + 1) < 2 ^ 64 ∧
      ∃ level, f.freshLevel m (f.generation + 1) = .ok level ∧ g = f.start level := by
  rcases growBy_cases m a f with ⟨e, hfailed⟩ | ⟨_, level, -, hcapacity, hnext, hdone⟩
  · rw [hfailed] at h
    cases h
  · rw [hdone] at h
    cases h
    exact ⟨hcapacity, level, freshLevel_of_nextLevel hnext, rfl⟩

/-- Growth that fails changes nothing. -/
theorem filter_growBy_of_failure {e : FilterError} (h : (f.growBy m a).value.failure = some e) :
    (f.growBy m a).value.filter = f := by
  rcases growBy_cases m a f with ⟨_, hfailed⟩ | ⟨_, level, -, -, -, hdone⟩
  · rw [hfailed]
    rfl
  · rw [hdone] at h
    cases h

end ScalableBloom

end ApproxSet

import ApproxSet.Bloom.Plan
import ApproxSet.Proofs.Codec

/-!
# Block indices

A hash is scaled to a block of the filter, so lookups and additions find their block in every filter
that has one. The number of blocks never changes, and every way to make a filter gives it between one
and `2 ^ 32 - 1`.
-/

namespace ApproxSet

namespace Bloom

open Codec (bind_eq_ok_iff)

/-! ## Accesses -/

/-- A lookup that stops where there is no block. -/
def contains? (f : Bloom) (hash : UInt64) : Option Bool := do
  let b ← f.blocks[blockIndex hash f.blocks.size]?
  some (b.meets (Block.mask hash))

/-- An addition that stops where there is no block. -/
def insert? (f : Bloom) (hash : UInt64) : Option Bloom := do
  let i := blockIndex hash f.blocks.size
  let b ← f.blocks[i]?
  some ⟨f.blocks.setIfInBounds i (b.union (Block.mask hash))⟩

theorem blockIndex_lt {f : Bloom} (hf : f.Valid) (hash : UInt64) :
    blockIndex hash f.blocks.size < f.blocks.size :=
  Word.scale32_lt _ hf.1

theorem contains?_eq {f : Bloom} (hf : f.Valid) (hash : UInt64) :
    f.contains? hash = some (f.contains hash) := by
  have hi := blockIndex_lt hf hash
  simp [contains?, contains, hi]

theorem insert?_eq {f : Bloom} (hf : f.Valid) (hash : UInt64) :
    f.insert? hash = some (f.insert hash) := by
  have hi := blockIndex_lt hf hash
  have hmodify : f.blocks.modify (blockIndex hash f.blocks.size) (·.union (Block.mask hash)) =
      f.blocks.setIfInBounds (blockIndex hash f.blocks.size)
        (f.blocks[blockIndex hash f.blocks.size].union (Block.mask hash)) := by
    apply Array.ext
    · simp
    · intro j _ _
      rw [Array.getElem_modify, Array.getElem_setIfInBounds]
      split
      · rename_i hij
        simp only [hij]
      · rfl
  have hinsert : f.insert hash = ⟨f.blocks.modify (blockIndex hash f.blocks.size)
      (·.union (Block.mask hash))⟩ := rfl
  rw [hinsert, hmodify]
  simp only [insert?, Array.getElem?_eq_getElem hi]
  rfl

/-! ## Valid filters -/

theorem valid_insert {f : Bloom} (hf : f.Valid) (hash : UInt64) : (f.insert hash).Valid := by
  have hsize : (f.insert hash).blocks.size = f.blocks.size := by simp [insert]
  unfold Valid
  rw [hsize]
  exact hf

theorem valid_union {f g m : Bloom} (hf : f.Valid) (h : f.union g = .ok m) : m.Valid := by
  unfold union at h
  split at h
  · rename_i hsize
    cases h
    simpa [Valid, hsize] using hf
  · cases h

theorem eq_of_copy {a : Allocator} {f g : Bloom} (h : f.copy a = .ok g) : g = f := by
  obtain ⟨_, -, hcopy⟩ := bind_eq_ok_iff.mp h
  cases hcopy
  rfl

theorem eq_empty_of_ofBytes {a : Allocator} {bytes : Nat} {f : Bloom}
    (h : ofBytes a bytes = .ok f) :
    bytes ≤ Sizing.maxBlockFilterBytes ∧ f = empty (max 1 (bytes / Sizing.blockBytes)) := by
  unfold ofBytes at h
  split at h
  · cases h
  · rename_i hbytes
    obtain ⟨_, -, hempty⟩ := bind_eq_ok_iff.mp h
    cases hempty
    exact ⟨Nat.le_of_not_lt hbytes, rfl⟩

theorem valid_ofBytes {a : Allocator} {bytes : Nat} {f : Bloom} (h : ofBytes a bytes = .ok f) :
    f.Valid := by
  obtain ⟨hbytes, rfl⟩ := eq_empty_of_ofBytes h
  have hle : bytes / Sizing.blockBytes ≤ 2 ^ 32 - 1 := Nat.div_le_of_le_mul hbytes
  constructor
  · simp only [empty, Array.size_replicate]
    omega
  · simp only [empty, Array.size_replicate]
    omega

theorem valid_ofCountBy {m : Rate.Model} {a : Allocator} {count : Nat} {rate : Float} {f : Bloom}
    (h : ofCountBy m a count rate = .ok f) : f.Valid := by
  obtain ⟨bytes, -, hsized⟩ := bind_eq_ok_iff.mp h
  exact valid_ofBytes hsized

theorem valid_planned {a : Allocator} {items : Nat} {rate : Float} {f : Bloom} {plan : Plan}
    (h : planned a items rate = .ok (f, plan)) : f.Valid := by
  obtain ⟨made, -, hplan⟩ := bind_eq_ok_iff.mp h
  obtain ⟨g, hg, hpair⟩ := bind_eq_ok_iff.mp hplan
  cases hpair
  exact valid_ofBytes hg

end Bloom

end ApproxSet

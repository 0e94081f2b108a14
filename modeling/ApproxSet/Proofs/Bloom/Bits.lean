import ApproxSet.Bloom.Basic
import ApproxSet.Logged
import Mathlib.Data.Nat.Bitwise

/-!
# Bits of block filters

A filter is looked at as a set of bits, each with its block, its word and its place in that word.
Adding a hash sets one bit in each word of one block, union joins the sets, and filters of one size
with the same bits are equal. So whatever is said of a filter that was filled is said of its hashes,
in no order and with no multiplicity.
-/

namespace ApproxSet

namespace Block

def bit (b : Block) (word : Fin 8) (place : Nat) : Bool :=
  b.words[word].toNat.testBit place

/-- The place of the bit that a hash picks in a word. -/
def place (hash : UInt64) (word : Fin 8) : Nat :=
  (bitPosition hash seeds[word]).toNat

theorem ext_bit {a b : Block} (h : ∀ word place, a.bit word place = b.bit word place) : a = b := by
  cases a with
  | mk x =>
      cases b with
      | mk y =>
          congr 1
          apply Vector.ext
          intro i hi
          apply UInt32.toNat_inj.mp
          exact Nat.eq_of_testBit_eq (h ⟨i, hi⟩)

@[simp] theorem bit_empty (word : Fin 8) (place : Nat) : empty.bit word place = false := by
  simp [bit, empty]

@[simp] theorem bit_union (a b : Block) (word : Fin 8) (place : Nat) :
    (a.union b).bit word place = (a.bit word place || b.bit word place) := by
  simp [bit, union]

theorem place_lt (hash : UInt64) (word : Fin 8) : place hash word < 32 := by
  unfold place bitPosition
  rw [UInt32.toNat_shiftRight, Nat.shiftRight_eq_div_pow]
  apply Nat.div_lt_of_lt_mul
  exact UInt32.toNat_lt _

/-- Two hashes pick the same bit of a word if they pick the same place. -/
theorem place_eq_iff (g h : UInt64) (word : Fin 8) :
    place g word = place h word ↔ bitPosition g seeds[word] = bitPosition h seeds[word] :=
  UInt32.toNat_inj

theorem toNat_mask (hash : UInt64) (word : Fin 8) :
    (mask hash).words[word].toNat = 2 ^ place hash word := by
  have hlt := place_lt hash word
  have hpow : 2 ^ place hash word < 2 ^ 32 := Nat.pow_lt_pow_right (by omega) hlt
  have hword : (mask hash).words[word] = 1 <<< bitPosition hash seeds[word] := by
    simp [mask]
  rw [hword, UInt32.toNat_shiftLeft]
  show 1 <<< (place hash word % 32) % 2 ^ 32 = _
  rw [Nat.mod_eq_of_lt hlt, Nat.one_shiftLeft, Nat.mod_eq_of_lt hpow]

@[simp] theorem bit_mask (hash : UInt64) (word : Fin 8) (i : Nat) :
    (mask hash).bit word i = decide (place hash word = i) := by
  rw [bit, toNat_mask, Nat.testBit_two_pow]

/-- A block meets the mask of a hash if it has the bit of the hash in every word. -/
theorem meets_mask_iff (b : Block) (hash : UInt64) :
    b.meets (mask hash) = true ↔ ∀ word, b.bit word (place hash word) = true := by
  have hword (word : Fin 8) : (b.words[word] &&& (mask hash).words[word] != 0) =
      b.bit word (place hash word) := by
    have hand : (b.words[word] &&& (mask hash).words[word]).toNat =
        (b.bit word (place hash word)).toNat * 2 ^ place hash word := by
      rw [UInt32.toNat_and, toNat_mask, Nat.and_two_pow]
      rfl
    cases hbit : b.bit word (place hash word) with
    | false => simp_all [← UInt32.toNat_inj]
    | true => simp_all [← UInt32.toNat_inj]
  unfold meets
  rw [Vector.all_eq_true]
  constructor
  · intro h word
    rw [← hword]
    simpa using h word word.isLt
  · intro h i hi
    have hbit := h ⟨i, hi⟩
    rw [← hword] at hbit
    simpa using hbit

end Block

namespace Bloom

/-- A bit of a filter; blocks that are not there have none. -/
def bit (f : Bloom) (block : Nat) (word : Fin 8) (place : Nat) : Bool :=
  (f.blocks.getD block Block.empty).bit word place

theorem ext_bit {f g : Bloom} (hsize : f.blocks.size = g.blocks.size)
    (h : ∀ block word place, f.bit block word place = g.bit block word place) : f = g := by
  cases f with
  | mk xs =>
      cases g with
      | mk ys =>
          congr 1
          apply Array.ext hsize
          intro i hx hy
          apply Block.ext_bit
          intro word place
          have hbit := h i word place
          simpa [bit, hx, hy] using hbit

/-- The bits that a hash sets in a filter of `blocks` blocks, one in every word of its block. -/
def Sets (blocks : Nat) (hash : UInt64) (block : Nat) (word : Fin 8) (place : Nat) : Prop :=
  blockIndex hash blocks = block ∧ Block.place hash word = place

@[simp] theorem size_empty (blocks : Nat) : (empty blocks).blocks.size = blocks := by
  simp [empty]

@[simp] theorem size_insert (f : Bloom) (hash : UInt64) :
    (f.insert hash).blocks.size = f.blocks.size := by
  simp [insert]

@[simp] theorem size_insertAll (f : Bloom) (hashes : List UInt64) :
    (f.insertAll hashes).blocks.size = f.blocks.size := by
  unfold insertAll
  induction hashes generalizing f with
  | nil => rfl
  | cons hash hashes ih => rw [List.foldl_cons, ih, size_insert]

@[simp] theorem bit_empty (blocks block : Nat) (word : Fin 8) (place : Nat) :
    (empty blocks).bit block word place = false := by
  have hblock : (empty blocks).blocks.getD block Block.empty = Block.empty := by
    simp [empty, Array.getElem?_replicate]
    split <;> rfl
  rw [bit, hblock, Block.bit_empty]

theorem bit_insert_iff {f : Bloom} (hf : 0 < f.blocks.size) (hash : UInt64) (block : Nat)
    (word : Fin 8) (place : Nat) :
    (f.insert hash).bit block word place = true ↔
      f.bit block word place = true ∨ Sets f.blocks.size hash block word place := by
  have hlt : blockIndex hash f.blocks.size < f.blocks.size := Word.scale32_lt _ hf
  have hget : (f.insert hash).blocks[block]? =
      if blockIndex hash f.blocks.size = block then
        f.blocks[block]?.map (·.union (Block.mask hash)) else f.blocks[block]? :=
    Array.getElem?_modify
  unfold bit Sets
  rw [Array.getD_eq_getD_getElem?, Array.getD_eq_getD_getElem?, hget]
  by_cases hblock : blockIndex hash f.blocks.size = block
  · have hin : block < f.blocks.size := hblock ▸ hlt
    simp [hblock, hin]
  · simp [hblock]

/-- A filled filter has the bits it had and those of the hashes. -/
theorem bit_insertAll_iff {f : Bloom} (hf : 0 < f.blocks.size) (hashes : List UInt64)
    (block : Nat) (word : Fin 8) (place : Nat) :
    (f.insertAll hashes).bit block word place = true ↔
      f.bit block word place = true ∨
        ∃ hash ∈ hashes, Sets f.blocks.size hash block word place := by
  induction hashes generalizing f with
  | nil => simp [insertAll]
  | cons hash hashes ih =>
      have hrest := ih (f := f.insert hash) (by rwa [size_insert])
      rw [size_insert, bit_insert_iff hf, or_assoc] at hrest
      simp only [List.mem_cons, exists_eq_or_imp]
      exact hrest

theorem bit_union {f g m : Bloom} (h : f.union g = .ok m) (block : Nat) (word : Fin 8)
    (place : Nat) :
    m.bit block word place = (f.bit block word place || g.bit block word place) := by
  unfold union at h
  split at h
  · rename_i hsize
    cases h
    unfold bit
    simp only [Array.getD_eq_getD_getElem?, Array.getElem?_zipWith]
    by_cases hin : block < f.blocks.size
    · have hin' : block < g.blocks.size := hsize ▸ hin
      simp [hin, hin']
    · have hin' : ¬ block < g.blocks.size := hsize ▸ hin
      simp [hin, hin']
  · cases h

theorem contains_iff {f : Bloom} (hf : 0 < f.blocks.size) (hash : UInt64) :
    f.contains hash = true ↔
      ∀ word, f.bit (blockIndex hash f.blocks.size) word (Block.place hash word) = true := by
  have hlt : blockIndex hash f.blocks.size < f.blocks.size := Word.scale32_lt _ hf
  have hblock : f.contains hash =
      (f.blocks[blockIndex hash f.blocks.size]).meets (Block.mask hash) := by
    simp [contains, hlt]
  rw [hblock, Block.meets_mask_iff]
  simp [bit, hlt]

end Bloom

end ApproxSet

import ApproxSet.Proofs.Bloom.Bits

/-!
# Filled block filters

Filling a new filter turns sets of hashes into filters: the order of the hashes and their repetition
do not matter, and the union of two filled filters is the filter of all the hashes. What such a
filter finds is known exactly. A hash is found if each of its eight bits was set by some hash of the
same block, which need not be the same one for every word.
-/

namespace ApproxSet.Bloom

variable {blocks : Nat}

theorem insertAll_append (f : Bloom) (xs ys : List UInt64) :
    f.insertAll (xs ++ ys) = (f.insertAll xs).insertAll ys :=
  List.foldl_append

theorem bit_fill_iff (h : 0 < blocks) (hashes : List UInt64) (block : Nat) (word : Fin 8)
    (place : Nat) :
    ((empty blocks).insertAll hashes).bit block word place = true ↔
      ∃ hash ∈ hashes, Sets blocks hash block word place := by
  have hbit := bit_insertAll_iff (f := empty blocks) (by rwa [size_empty]) hashes block word place
  rw [size_empty, bit_empty] at hbit
  simpa using hbit

/-- A filled filter depends only on which hashes went in. -/
theorem fill_congr (h : 0 < blocks) {xs ys : List UInt64} (hxy : ∀ hash, hash ∈ xs ↔ hash ∈ ys) :
    (empty blocks).insertAll xs = (empty blocks).insertAll ys := by
  apply ext_bit
  · simp
  · intro block word place
    rw [Bool.eq_iff_iff, bit_fill_iff h, bit_fill_iff h]
    simp only [hxy]

theorem contains_fill_iff (h : 0 < blocks) (hashes : List UInt64) (hash : UInt64) :
    ((empty blocks).insertAll hashes).contains hash = true ↔
      ∀ word, ∃ x ∈ hashes, Sets blocks x (blockIndex hash blocks) word (Block.place hash word) := by
  have hsize : ((empty blocks).insertAll hashes).blocks.size = blocks := by simp
  rw [contains_iff (by rwa [hsize]), hsize]
  simp only [bit_fill_iff h]

theorem contains_fill_of_mem (h : 0 < blocks) {hashes : List UInt64} {hash : UInt64}
    (hmem : hash ∈ hashes) : ((empty blocks).insertAll hashes).contains hash = true := by
  rw [contains_fill_iff h]
  intro word
  exact ⟨hash, hmem, rfl, rfl⟩

theorem contains_empty (h : 0 < blocks) (hash : UInt64) :
    (empty blocks).contains hash = false := by
  have hnone := (contains_fill_iff h [] hash).mp
  rw [Bool.eq_false_iff]
  intro hfound
  obtain ⟨x, hx, -⟩ := hnone hfound 0
  cases hx

/-! ## Union -/

theorem union_of_size_eq {f g : Bloom} (h : f.blocks.size = g.blocks.size) :
    f.union g = .ok ⟨Array.zipWith Block.union f.blocks g.blocks⟩ :=
  if_pos h

theorem union_fill (h : 0 < blocks) (xs ys : List UInt64) :
    ((empty blocks).insertAll xs).union ((empty blocks).insertAll ys) =
      .ok ((empty blocks).insertAll (xs ++ ys)) := by
  have hunion := union_of_size_eq (f := (empty blocks).insertAll xs)
    (g := (empty blocks).insertAll ys) (by simp)
  rw [hunion]
  congr 1
  apply ext_bit
  · simp
  · intro block word place
    rw [bit_union hunion, Bool.eq_iff_iff, Bool.or_eq_true, bit_fill_iff h, bit_fill_iff h,
      bit_fill_iff h]
    simp only [List.mem_append, or_and_right, exists_or]

/-- Merges one block of `g` into the same block of an array. -/
def mergeBlock (g : Bloom) (blocks : Array Block) (i : Nat) : Array Block :=
  blocks.modify i (·.union (g.blocks.getD i Block.empty))

/-- Merges `g` into `f` in place: the sizes are compared first, then block after block is written. -/
def unionInto (f g : Bloom) : Outcome Bloom :=
  if f.blocks.size = g.blocks.size then
    .done ⟨(List.range f.blocks.size).foldl (mergeBlock g) f.blocks⟩
  else
    .failed f (.differentBlockCounts f.blocks.size g.blocks.size)

/-- After `n` writes the first `n` blocks are merged and the others are as they were. -/
theorem getElem?_foldl_mergeBlock (g : Bloom) (blocks : Array Block) (n i : Nat) :
    ((List.range n).foldl (mergeBlock g) blocks)[i]? =
      if i < n then blocks[i]?.map (·.union (g.blocks.getD i Block.empty)) else blocks[i]? := by
  induction n with
  | zero => simp
  | succ n ih =>
      rw [List.range_succ, List.foldl_append, List.foldl_cons, List.foldl_nil, mergeBlock,
        Array.getElem?_modify, ih]
      by_cases hin : n = i
      · simp [hin]
      · have hlt : i < n + 1 ↔ i < n := by omega
        simp [hin, hlt]

/-- Merging in place leaves the union, or the filter as it was. -/
theorem unionInto_eq (f g : Bloom) :
    f.unionInto g =
      match f.union g with
      | .ok m => .done m
      | .error e => .failed f e := by
  unfold unionInto union
  split
  · rename_i hsize
    simp only
    congr 2
    apply Array.ext_getElem?
    intro i
    rw [getElem?_foldl_mergeBlock, Array.getElem?_zipWith]
    by_cases hin : i < f.blocks.size
    · have hin' : i < g.blocks.size := hsize ▸ hin
      simp [hin, hin']
    · have hin' : ¬ i < g.blocks.size := hsize ▸ hin
      simp [hin, hin']
  · rfl

/-- Filters are filled with sets of hashes: union is the filter of all hashes, in whatever order they
come and however often, and it finds what its bits say. Filters of different sizes are refused, and
merging one into the other in place leaves it as it was. -/
theorem fill_spec (h : 0 < blocks) (xs ys : List UInt64) :
    ((empty blocks).insertAll xs).union ((empty blocks).insertAll ys) =
        .ok (((empty blocks).insertAll xs).insertAll ys) ∧
      ((empty blocks).insertAll xs).unionInto ((empty blocks).insertAll ys) =
        .done (((empty blocks).insertAll xs).insertAll ys) ∧
      (∀ zs : List UInt64, (∀ hash, hash ∈ zs ↔ hash ∈ xs ∨ hash ∈ ys) →
        (empty blocks).insertAll zs = ((empty blocks).insertAll xs).insertAll ys) ∧
      (∀ hash, (((empty blocks).insertAll xs).insertAll ys).contains hash = true ↔
        ∀ word : Fin 8, ∃ x, (x ∈ xs ∨ x ∈ ys) ∧
          blockIndex x blocks = blockIndex hash blocks ∧
          Block.bitPosition x Block.seeds[word] = Block.bitPosition hash Block.seeds[word]) ∧
      ∀ f g : Bloom, f.blocks.size ≠ g.blocks.size →
        f.union g = .error (.differentBlockCounts f.blocks.size g.blocks.size) ∧
        f.unionInto g = .failed f (.differentBlockCounts f.blocks.size g.blocks.size) := by
  have hunion := union_fill h xs ys
  have hinto := unionInto_eq ((empty blocks).insertAll xs) ((empty blocks).insertAll ys)
  rw [hunion] at hinto
  rw [← insertAll_append]
  constructor
  · exact hunion
  constructor
  · exact hinto
  constructor
  · intro zs hzs
    apply fill_congr h
    simpa using hzs
  constructor
  · intro hash
    rw [contains_fill_iff h]
    simp only [List.mem_append, Sets, Block.place_eq_iff]
  · intro f g hsize
    exact ⟨if_neg hsize, if_neg hsize⟩

/-- Of two hashes with one low half, one that was added lets the other be found if they share a block;
in another block it is not found. A hash of the same block with another low half is told apart by its
first bit. -/
theorem fill_of_repeated_hashes :
    0 < 2 ∧ (empty 1).blocks.size ≠ (empty 2).blocks.size ∧
      ((empty 2).insertAll [7]).union ((empty 2).insertAll [5]) =
        .ok ((empty 2).insertAll [5, 7, 5]) ∧
      ((empty 2).insertAll [5, 7, 5]).contains 0x10000000005 = true ∧
      ((empty 2).insertAll [5, 7, 5]).contains 0x8000000000000005 = false ∧
      ((empty 2).insertAll [5, 7, 5]).contains 6 = false ∧
      (empty 1).unionInto (empty 2) = .failed (empty 1) (.differentBlockCounts 1 2) := by
  have hpos : 0 < 2 := by decide
  have hsize : (empty 1).blocks.size ≠ (empty 2).blocks.size := by decide
  rcases fill_spec hpos [7] [5] with ⟨hunion, -, hsame, hfound, hrefused⟩
  have hfill := hsame [5, 7, 5] (by simp [or_comm])
  have hlow (word : Fin 8) : Block.bitPosition 5 Block.seeds[word] =
      Block.bitPosition 0x10000000005 Block.seeds[word] := by
    revert word
    decide
  rw [hfill]
  constructor
  · exact hpos
  constructor
  · exact hsize
  constructor
  · exact hunion
  constructor
  · rw [hfound]
    intro word
    exact ⟨5, by simp, by decide, hlow word⟩
  constructor
  · rw [Bool.eq_false_iff, ne_eq, hfound]
    intro hall
    obtain ⟨x, hx, hblock, -⟩ := hall 0
    simp only [List.mem_singleton] at hx
    rcases hx with rfl | rfl
    · exact absurd hblock (by decide)
    · exact absurd hblock (by decide)
  constructor
  · rw [Bool.eq_false_iff, ne_eq, hfound]
    intro hall
    obtain ⟨x, hx, -, hbit⟩ := hall 0
    simp only [List.mem_singleton] at hx
    rcases hx with rfl | rfl
    · exact absurd hbit (by decide)
    · exact absurd hbit (by decide)
  · exact (hrefused (empty 1) (empty 2) hsize).2

end ApproxSet.Bloom

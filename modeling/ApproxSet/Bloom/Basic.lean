import ApproxSet.Allocator
import ApproxSet.Bloom.Block
import ApproxSet.ShortHash
import ApproxSet.Sizing
import ApproxSet.Word

/-!
# Split block Bloom filters

An array of blocks. The high half of a hash picks a block, the low half one bit in each of its
words; adding sets these bits and a query asks for all of them.
-/

namespace ApproxSet

structure Bloom where
  blocks : Array Block
  deriving DecidableEq

namespace Bloom

/-- At least one block, and few enough for a 32-bit index. -/
def Valid (f : Bloom) : Prop :=
  0 < f.blocks.size ∧ f.blocks.size < 2 ^ 32

instance (f : Bloom) : Decidable f.Valid :=
  inferInstanceAs (Decidable (_ ∧ _))

def empty (count : Nat) : Bloom := ⟨Array.replicate count Block.empty⟩

/-- The largest filter of at most `bytes` bytes, but one block at least. -/
def ofBytes (a : Allocator) (bytes : Nat) : Except FilterError Bloom := do
  if bytes > Sizing.maxBlockFilterBytes then
    throw (.filterSize bytes)
  let count := max 1 (bytes / Sizing.blockBytes)
  a.request [.fresh 0 (Sizing.blockBytes * count)]
  return empty count

/-- A filter sized for `count` hashes at a modelled rate of at most `rate`. -/
def ofCountBy (m : Rate.Model) (a : Allocator) (count : Nat) (rate : Float) :
    Except FilterError Bloom := do
  ofBytes a (← Sizing.bytesNeededBy m count rate)

def ofCount (a : Allocator) (count : Nat) (rate : Float) : Except FilterError Bloom :=
  ofCountBy Rate.poisson a count rate

def blockIndex (hash : UInt64) (count : Nat) : Nat :=
  Word.scale32 (hash >>> 32).toUInt32 count

def insert (f : Bloom) (hash : UInt64) : Bloom :=
  match f with
  | ⟨blocks⟩ => ⟨blocks.modify (blockIndex hash blocks.size) (·.union (Block.mask hash))⟩

def contains (f : Bloom) (hash : UInt64) : Bool :=
  match f.blocks[blockIndex hash f.blocks.size]? with
  | some b => b.meets (Block.mask hash)
  | none => false

def insert32 (f : Bloom) (hash : UInt32) : Bloom := f.insert (ShortHash.toLowHalf hash)

def contains32 (f : Bloom) (hash : UInt32) : Bool := f.contains (ShortHash.toLowHalf hash)

def insertAll (f : Bloom) (hashes : List UInt64) : Bloom := hashes.foldl insert f

/-- Everything in either filter; they must have the same size. -/
def union (f g : Bloom) : Except FilterError Bloom :=
  if f.blocks.size = g.blocks.size then
    .ok ⟨Array.zipWith Block.union f.blocks g.blocks⟩
  else
    .error (.differentBlockCounts f.blocks.size g.blocks.size)

def sizeInBytes (f : Bloom) : Nat := f.blocks.size * Sizing.blockBytes

/-- The same filter in a new array. -/
def copy (a : Allocator) (f : Bloom) : Except FilterError Bloom := do
  a.request [.fresh 0 f.sizeInBytes]
  return f

end Bloom

end ApproxSet

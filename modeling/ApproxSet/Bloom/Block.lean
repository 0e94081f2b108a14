/-!
# Blocks

Eight 32-bit words. A hash picks one bit in each word with its low half, by eight fixed odd
multipliers; the mask of a hash has just these bits.
-/

namespace ApproxSet

/-- Eight words, searched and merged word by word. -/
structure Block where
  words : Vector UInt32 8
  deriving DecidableEq

namespace Block

def empty : Block := ⟨Vector.replicate 8 0⟩

def seeds : Vector UInt32 8 :=
  #v[0x47b6137b, 0x44974d91, 0x8824ad5b, 0xa2b7289d, 0x705495c7, 0x2df1424b, 0x9efc4947, 0x5c6bfb31]

/-- The bit that a seed picks for a hash: the top five bits of the product. -/
def bitPosition (hash : UInt64) (seed : UInt32) : UInt32 :=
  (hash.toUInt32 * seed) >>> 27

def mask (hash : UInt64) : Block :=
  ⟨seeds.map fun seed => 1 <<< bitPosition hash seed⟩

def union (a b : Block) : Block :=
  ⟨Vector.zipWith (· ||| ·) a.words b.words⟩

/-- Does every word of `b` share a bit with its word of `m`? -/
def meets (b m : Block) : Bool :=
  (Vector.zipWith (fun x y => x &&& y != 0) b.words m.words).all id

end Block

end ApproxSet

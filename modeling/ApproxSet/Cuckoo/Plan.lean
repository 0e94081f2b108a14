import ApproxSet.Cuckoo.Growth

/-!
# Planned cuckoo filters

A starting size, given in bytes or for a number of items, and permutation keys.
-/

namespace ApproxSet.Cuckoo

structure Plan where
  bytes : Nat := 1
  entropy : Entropy := Entropy.standard
  deriving DecidableEq

namespace Plan

def withBytes (p : Plan) (bytes : Nat) : Plan := { p with bytes := bytes }

def withEntropy (p : Plan) (entropy : Entropy) : Plan := { p with entropy := entropy }

def slotBytes : Nat := 2

/-- The least power of two that is at least `n`. -/
def powerAbove (n : Nat) : Nat :=
  if n ≤ 1 then 1 else 2 ^ ((n - 1).log2 + 1)

/-- Starts large enough for `items` hashes at nine tenths full. Side sizes round down to a power of
two, so the budget is rounded up to one; the largest 64-bit number stands for anything above. -/
def withItems (p : Plan) (items : Nat) : Plan :=
  let slots := (10 * items + 8) / 9
  { p with bytes := min (powerAbove (slots * slotBytes)) (2 ^ 64 - 1) }

def build (a : Allocator) (p : Plan) : Except FilterError Cuckoo := ofBytes a p.bytes p.entropy

end Plan

end ApproxSet.Cuckoo

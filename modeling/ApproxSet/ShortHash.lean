/-!
# Short hashes

Callers may hold 32-bit hashes. Both widenings keep every bit of the short hash and fill the other
half of the word by a fixed multiplication: the filters that index with the upper half want fresh
bits there, the ones that read bits from the top want the caller's bits there.
-/

namespace ApproxSet.ShortHash

/-- The short hash in the low half, mixed bits above it. -/
def toLowHalf (h : UInt32) : UInt64 :=
  ((0xd1012a3a7a1f4a8a * h.toUInt64) >>> 32 <<< 32) ||| h.toUInt64

/-- The short hash in the high half, mixed bits below it. -/
def toHighHalf (h : UInt32) : UInt64 :=
  (h.toUInt64 <<< 32) ||| ((0x05c2c3e0ffb449c7 * h.toUInt64) >>> 32)

end ApproxSet.ShortHash

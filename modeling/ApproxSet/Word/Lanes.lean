/-!
# Packed lanes

Four 10-bit lanes in the low 40 bits of a word, searched all at once by borrow propagation. The
bits above the lanes do not matter.
-/

namespace ApproxSet.Lanes

def laneBits : Nat := 10

def ones : UInt64 := 0x40100401

def tops : UInt64 := 0x8020080200

def lane (x : UInt64) (i : Fin 4) : Nat :=
  x.toNat / 2 ^ (laneBits * i) % 2 ^ laneBits

/-- Does some lane of `x` hold zero? -/
def anyZero (x : UInt64) : Bool :=
  (x - ones) &&& ~~~x &&& tops != 0

/-- Does some lane of `x` hold `n`, a value below 1024? -/
def anyEq (x n : UInt64) : Bool :=
  anyZero (x ^^^ (ones * n))

end ApproxSet.Lanes

/-!
# Word mixing

A fixed finalizer of 64-bit words built from two kinds of invertible step: a right xor-shift and a
multiplication by an odd constant. `keyed` puts a key in front of it; key 0 leaves words unchanged.
-/

namespace ApproxSet.Word

def xorShift (shift : Nat) (z : UInt64) : UInt64 :=
  z ^^^ (z >>> UInt64.ofNat shift)

def mix (z : UInt64) : UInt64 :=
  xorShift 31 (xorShift 27 (xorShift 30 z * 0xbf58476d1ce4e5b9) * 0x94d049bb133111eb)

/-- The word that stands for `z` under `key`. -/
def keyed (key z : UInt64) : UInt64 :=
  if key = 0 then z else mix (z ^^^ key)

end ApproxSet.Word

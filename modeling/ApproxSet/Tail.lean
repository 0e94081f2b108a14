import ApproxSet.Power

/-!
# Tails

A tail is a bit string of at most five bits, written from the top of a six-bit field and ended by a
one; zeros follow. The field zero is no tail. One tail is a prefix of another exactly when they
agree above the first one's end and the other does not end earlier.
-/

namespace ApproxSet

/-- The code of a bit string, ended by its lowest one. -/
structure Tail where
  code : UInt16
  deriving DecidableEq, Inhabited

namespace Tail

def maxLength : Nat := 5

def fieldMask : UInt16 := 63

def empty : Tail := ⟨32⟩

/-- The tail of the five bits of `bits`. -/
def full (bits : UInt16) : Tail := ⟨bits * 2 + 1⟩

/-- Where the ending one stands; 16 if there is none. -/
def terminator (t : Tail) : Nat :=
  ((List.range 16).find? fun i => t.code.toNat.testBit i).getD 16

def length (t : Tail) : Nat :=
  maxLength - t.terminator

/-- The field without its ending one. -/
def payload (t : Tail) : UInt16 :=
  t.code &&& (t.code - 1)

/-- The string without its first `n` bits, for `n` at most its length. -/
def drop (t : Tail) (n : Nat) : Tail :=
  ⟨(t.code <<< UInt16.ofNat n) &&& fieldMask⟩

def isPrefixOf (t u : Tail) : Bool :=
  decide (u.terminator ≤ t.terminator) &&
    decide ((t.code ^^^ u.code).toNat < 2 ^ (t.terminator + 1))

end Tail

end ApproxSet

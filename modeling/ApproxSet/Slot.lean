import ApproxSet.Tail

/-!
# Slots

A slot packs a ten-bit fingerprint above a six-bit tail field. A slot whose tail field is zero is
vacant, whatever its fingerprint.
-/

namespace ApproxSet

/-- Sixteen bits: fingerprint, then tail. -/
structure Slot where
  word : UInt16
  deriving DecidableEq, Inhabited

namespace Slot

def fingerprintBits : Nat := 10

/-- Packs a fingerprint and a tail; bits outside their fields are lost. -/
def pack (fingerprint : UInt16) (tail : Tail) : Slot :=
  ⟨(fingerprint <<< 6) ||| (tail.code &&& Tail.fieldMask)⟩

def vacant : Slot := ⟨0⟩

def fingerprint (s : Slot) : UInt16 :=
  s.word >>> 6

def tail (s : Slot) : Tail :=
  ⟨s.word &&& Tail.fieldMask⟩

def isVacant (s : Slot) : Bool :=
  s.tail.code == 0

def withTail (s : Slot) (t : Tail) : Slot :=
  pack s.fingerprint t

/-- Does the slot stand for every hash that `query` could come from? -/
def covers (s query : Slot) : Bool :=
  !s.isVacant && s.fingerprint == query.fingerprint && s.tail.isPrefixOf query.tail

end Slot

end ApproxSet

import ApproxSet.Permutation
import ApproxSet.Slot

/-!
# Entries and stems

A side of `2 ^ logSide` buckets reads a hash as a prefix of `logSide + 10` bits followed by five
tail bits; what is below is unused. The side's permutation turns the prefix into a bucket and a
fingerprint. An `Entry` is a slot with its bucket, and depends on the side; its `Stem` is the prefix
itself with the tail, and does not. Stems are what moves between sides and between table sizes.
-/

namespace ApproxSet

/-- A slot and the bucket it belongs in. -/
structure Entry where
  bucket : UInt64
  slot : Slot
  deriving DecidableEq, Inhabited

/-- The prefix of a hash, left aligned in a word, and the tail that follows it. -/
structure Stem where
  bits : UInt64
  tail : Tail
  deriving DecidableEq

/-- Bits of a hash that pick a bucket and a fingerprint. -/
def Stem.width (logSide : Nat) : Nat :=
  logSide + Slot.fingerprintBits

namespace Entry

/-- Bucket and fingerprint as one number. -/
def permuted (e : Entry) : UInt64 :=
  (e.bucket <<< 10) ||| e.slot.fingerprint.toUInt64

def ofHash (p : Permutation) (logSide : Nat) (hash : UInt64) : Entry :=
  let width := Stem.width logSide
  let image := p.forward width (hash >>> UInt64.ofNat (64 - width))
  let tailBits := Word.low Tail.maxLength (hash >>> UInt64.ofNat (64 - width - Tail.maxLength))
  { bucket := image >>> 10
    slot := Slot.pack (image &&& 1023).toUInt16 (Tail.full tailBits.toUInt16) }

/-- The prefix shared by all hashes that `e` can come from, left aligned. -/
def hashPrefix (p : Permutation) (logSide : Nat) (e : Entry) : UInt64 :=
  p.backward (Stem.width logSide) e.permuted <<< UInt64.ofNat (64 - Stem.width logSide)

def toStem (p : Permutation) (logSide : Nat) (e : Entry) : Stem :=
  ⟨e.hashPrefix p logSide, e.slot.tail⟩

def ofStem (p : Permutation) (logSide : Nat) (stem : Stem) : Entry :=
  let e := ofHash p logSide stem.bits
  { e with slot := e.slot.withTail stem.tail }

end Entry

namespace Stem

/-- The stems that stand for the same hashes once sides have `2 ^ new` buckets instead of
`2 ^ old`. Tail bits move into the prefix, one for each doubling; when the tail runs out, every
value of the missing bits is listed in order with an empty tail. -/
def widen (old new : Nat) (s : Stem) : List Stem :=
  let growth := new - old
  let bits := s.bits ||| (s.tail.payload.toUInt64 <<< UInt64.ofNat (48 - old))
  if growth ≤ s.tail.length then
    [⟨bits, s.tail.drop growth⟩]
  else
    (List.range (2 ^ (growth - s.tail.length))).map fun i =>
      ⟨bits ||| (UInt64.ofNat i <<< UInt64.ofNat (64 - Stem.width new)), Tail.empty⟩

end Stem

end ApproxSet

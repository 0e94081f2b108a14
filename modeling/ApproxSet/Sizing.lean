import ApproxSet.Rate

/-!
# Sizes from rates and budgets

The rate of a block filter falls with its size and rises with its contents. Both inverse questions
are answered the same way: double until the predicate holds, then halve the gap. The size of a
cuckoo filter is a logarithm of its budget.
-/

namespace ApproxSet.Sizing

def blockBytes : Nat := 32

/-- The largest budget that 32-bit block indices address. -/
def maxBlockFilterBytes : Nat := (2 ^ 32 - 1) * blockBytes

/-- The first power of two below `2 ^ limit` at which `p` holds. -/
def firstPower? (limit : Nat) (p : Nat → Bool) : Option Nat :=
  ((List.range limit).find? fun k => p (2 ^ k)).map (2 ^ ·)

/-- Halves the gap between `lo`, where `p` fails, and `hi`, where it holds; the result is the least
number above `lo` where it holds, if `p` changes only once between them. -/
def bisect (p : Nat → Bool) (lo hi : Nat) : Nat :=
  if lo + 1 < hi then
    let mid := lo + (hi - lo) / 2
    if p mid then bisect p lo mid else bisect p mid hi
  else hi
termination_by hi - lo

def wholeBlocks (n : Nat) : Nat :=
  (n + (blockBytes - 1)) / blockBytes * blockBytes

/-- The least whole-block size whose modelled rate with `count` hashes is at most `rate`. -/
def bytesNeededBy (model : Rate.Model) (count : Nat) (rate : Float) : Except FilterError Nat := do
  Rate.validate rate
  let enough bytes := decide (model count bytes ≤ rate)
  match firstPower? 38 enough with
  | none => throw (.filterSize (2 ^ 37))
  | some bound =>
    let bytes := wholeBlocks (bisect enough 0 bound)
    if bytes > maxBlockFilterBytes then throw (.filterSize bytes) else return bytes

/-- The most hashes a filter of `bytes` bytes holds with its modelled rate below `rate`. There is no
answer, and no error either, if doubling leaves 64 bits. -/
def blockCapacityBy (model : Rate.Model) (bytes : Nat) (rate : Float) :
    Except FilterError (Option Nat) := do
  Rate.validate rate
  let reached count := !decide (model count bytes < rate)
  return (firstPower? 64 reached).map fun bound => bisect reached 0 bound - 1

def bytesNeeded (count : Nat) (rate : Float) : Except FilterError Nat :=
  bytesNeededBy Rate.poisson count rate

def blockCapacity (bytes : Nat) (rate : Float) : Except FilterError (Option Nat) :=
  blockCapacityBy Rate.poisson bytes rate

/-- The logarithm of the buckets on each side of a cuckoo filter with a budget of `bytes`: sixteen
bytes hold one bucket of four two-byte slots on both sides. It is at least one. The logarithm has
the precision of a double, so a budget within 45 parts in `2^54` below a power of two counts as that
power. -/
def cuckooLogSide (bytes : Nat) : Nat :=
  let bits := if bytes = 0 then 0 else bytes.log2 + 1
  let log := if (2 ^ bits - bytes) * 2 ^ 54 ≤ 45 * 2 ^ bits then bits else bits - 1
  max 1 (log - 4)

end ApproxSet.Sizing

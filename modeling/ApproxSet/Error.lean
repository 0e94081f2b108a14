import ApproxSet.Decimal.Shortest

/-!
# Causes of failure

Every operation that can fail names its cause; `message` is the one place that words it. The causes
that carry a text keep it open, since stored data and incompatible operands differ in many ways;
`Defect` lists what reading a stored filter can object to.
-/

namespace ApproxSet

/-- Why a filter could not be built, grown, merged or read. -/
inductive FilterError where
  /-- A false positive rate outside the open unit interval, or not a number. -/
  | rateOutOfBounds (rate : Float)
  | itemCount (count : Nat)
  /-- A byte budget beyond 32-bit block indices. -/
  | filterSize (bytes : Nat)
  | allocationRefused (bytes : Nat)
  /-- No table size tried could be solved for the keys. -/
  | constructionFailed (keys attempts : Nat)
  /-- Growth beyond what a 64-bit hash can address. -/
  | capacityExceeded (limit : Nat) (what : String)
  | incompatible (reason : String)
  | malformed (defect : String)
  deriving BEq

namespace FilterError

def message : FilterError → String
  | rateOutOfBounds rate =>
    "False positive rate " ++ Decimal.shortestText rate
      ++ " is out of bounds. Must be in range (0, 1)."
  | itemCount count =>
    "Invalid item count: " ++ toString count ++ ". A static filter needs at least one key."
  | filterSize bytes =>
    "Invalid filter size: " ++ toString bytes
      ++ " bytes. Must be addressable by a 32-bit block index."
  | allocationRefused bytes => "Allocation of " ++ toString bytes ++ " bytes failed."
  | constructionFailed keys attempts =>
    "Static filter construction failed for " ++ toString keys ++ " keys after "
      ++ toString attempts ++ " attempts."
  | capacityExceeded limit what =>
    "Filter capacity exceeded: cannot grow past " ++ toString limit ++ " (" ++ what ++ ")."
  | incompatible reason =>
    "Cannot perform operation on incompatible filters: " ++ reason ++ "."
  | malformed defect => "Serialization error: " ++ defect ++ "."

/-- May a retry with another seed succeed? -/
def isRetryable : FilterError → Bool
  | constructionFailed _ _ => true
  | _ => false

def differentEntropy : FilterError :=
  .incompatible "taffy cuckoo filters built with different entropy"

def differentBlockCounts (mine theirs : Nat) : FilterError :=
  .incompatible ("block filters of " ++ toString mine ++ " and " ++ toString theirs ++ " blocks")

end FilterError

inductive Defect where
  | blockCount (blocks : Nat)
  | xorTable (slots window : Nat)
  | generationCount (generations : Nat)
  | zeroBaseCapacity
  | rate (rate : Float)
  | cuckooSideSize (logSide : Nat)
  | bucketCount (found expected : Nat)
  | stashEntry
  | foreignPermutation
  | drawWidth (bits : Nat)
  | packedSideSize (logSide : Nat)
  | packedBytes (found expected : Nat)
  deriving BEq

namespace Defect

def text : Defect → String
  | blockCount blocks => "block filter with " ++ toString blocks ++ " blocks"
  | xorTable slots window =>
    "static filter with " ++ toString slots ++ " slots and window " ++ toString window
  | generationCount generations =>
    "taffy block filter with " ++ toString generations ++ " generations"
  | zeroBaseCapacity => "taffy block filter with zero base capacity"
  | rate r => "taffy block filter: " ++ (FilterError.rateOutOfBounds r).message
  | cuckooSideSize logSide => "taffy cuckoo filter with log side size " ++ toString logSide
  | bucketCount found expected =>
    "taffy cuckoo side with " ++ toString found ++ " buckets, expected " ++ toString expected
  | stashEntry => "taffy cuckoo stash entry is empty or outside its side"
  | foreignPermutation => "taffy cuckoo permutation does not match its entropy"
  | drawWidth bits => "taffy cuckoo victim draws of " ++ toString bits ++ " bits"
  | packedSideSize logSide => "frozen filter with log side size " ++ toString logSide
  | packedBytes found expected =>
    "frozen filter with " ++ toString found ++ " data bytes, expected " ++ toString expected

def toError (d : Defect) : FilterError := .malformed d.text

end Defect

end ApproxSet

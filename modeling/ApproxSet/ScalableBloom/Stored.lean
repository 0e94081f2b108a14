import ApproxSet.Bloom.Stored
import ApproxSet.ScalableBloom

/-!
# Stored scalable filters

The generations after their number, oldest first, each a stored block filter checked as it is read;
then base capacity, rate, countdown and count.
-/

namespace ApproxSet.ScalableBloom

abbrev Fields := Array Bloom × Nat × Float × Nat × Nat

def toFields (f : ScalableBloom) : Fields :=
  (f.levels, f.baseCapacity, f.rate, f.countdown, f.count)

/-- Refuses fields that describe no filter: generations first, then base capacity, then rate. -/
def accept : Fields → Except Defect ScalableBloom
  | (levels, baseCapacity, rate, countdown, count) =>
    match levels.back? with
    | none => .error (.generationCount 0)
    | some newest =>
      if levels.size > maxGenerations then .error (.generationCount levels.size)
      else if baseCapacity = 0 then .error .zeroBaseCapacity
      else if Rate.Valid rate then .ok ⟨levels.pop, newest, baseCapacity, rate, countdown, count⟩
      else .error (.rate rate)

def codec : Codec ScalableBloom :=
  (Bloom.codec.array.pair
    ((Codec.nat 8).pair (Codec.double.pair ((Codec.nat 8).pair (Codec.nat 8))))).refine
    accept toFields

end ApproxSet.ScalableBloom

import ApproxSet.Cuckoo.Growth
import ApproxSet.PackedCuckoo
import ApproxSet.ScalableBloom
import ApproxSet.XorFilter.Basic

/-!
# Common interface

Every filter answers queries; some take hashes after they are built; some of those grow on request.
Memory is asked of the standard allocator.
-/

namespace ApproxSet

class Queryable (φ : Type) where
  contains : φ → UInt64 → Bool
  contains32 : φ → UInt32 → Bool
  sizeInBytes : φ → Nat

class Insertable (φ : Type) extends Queryable φ where
  insert : φ → UInt64 → Logged (Outcome φ)
  insert32 : φ → UInt32 → Logged (Outcome φ)

class Growing (φ : Type) extends Insertable φ where
  /-- Grows by one generation. A failure leaves the filter as it was. -/
  grow : φ → Logged (Outcome φ)
  generation : φ → Nat

instance : Insertable Bloom where
  contains := Bloom.contains
  contains32 := Bloom.contains32
  sizeInBytes := Bloom.sizeInBytes
  insert f h := pure (.done (f.insert h))
  insert32 f h := pure (.done (f.insert32 h))

instance : Queryable XorFilter where
  contains := XorFilter.contains
  contains32 := XorFilter.contains32
  sizeInBytes := XorFilter.sizeInBytes

instance : Queryable PackedCuckoo where
  contains := PackedCuckoo.contains
  contains32 := PackedCuckoo.contains32
  sizeInBytes := PackedCuckoo.sizeInBytes

instance : Growing ScalableBloom where
  contains := ScalableBloom.contains
  contains32 := ScalableBloom.contains32
  sizeInBytes := ScalableBloom.sizeInBytes
  insert := ScalableBloom.insert .standard
  insert32 := ScalableBloom.insert32 .standard
  grow := ScalableBloom.grow .standard
  generation := ScalableBloom.generation

instance : Growing Cuckoo where
  contains := Cuckoo.contains
  contains32 := Cuckoo.contains32
  sizeInBytes := Cuckoo.sizeInBytes
  insert := Cuckoo.insert .standard
  insert32 := Cuckoo.insert32 .standard
  grow f := .ofExcept f <$> f.grow .standard
  generation := Cuckoo.generation

end ApproxSet

import ApproxSet.Bloom.Basic
import ApproxSet.Logged

/-!
# Scalable Bloom filters

Block filters in generations, each with twice the capacity of the one before it and a smaller share
of the rate. Hashes go to the newest generation; when its countdown is used up, or on request, a new
one starts. Bits cannot be moved to a larger table, so older generations stay as they are.
-/

namespace ApproxSet

/-- Generations of block filters. -/
structure ScalableBloom where
  /-- Earlier generations, oldest first. -/
  older : Array Bloom
  newest : Bloom
  baseCapacity : Nat
  /-- The rate over all generations. -/
  rate : Float
  /-- Hashes the newest generation still takes. -/
  countdown : Nat
  /-- Hashes added, with repeats. -/
  count : Nat
  deriving BEq

namespace ScalableBloom

def maxGenerations : Nat := 64

structure Valid (f : ScalableBloom) : Prop where
  older_valid : ∀ b ∈ f.older, b.Valid
  newest_valid : f.newest.Valid
  generations_le : f.older.size + 1 ≤ maxGenerations
  baseCapacity_ne_zero : f.baseCapacity ≠ 0
  rate_valid : Rate.Valid f.rate

def levels (f : ScalableBloom) : Array Bloom := f.older.push f.newest

def generation (f : ScalableBloom) : Nat := f.older.size

def capacityOf (f : ScalableBloom) (generation : Nat) : Nat := f.baseCapacity * 2 ^ generation

/-- A filter whose first generation takes `count` hashes, or as many as the smallest table holds by the
model. There is none where that number is not found. -/
def ofCountBy (m : Rate.Model) (a : Allocator) (count : Nat) (rate : Float) :
    Except FilterError (Option ScalableBloom) := do
  Rate.validate rate
  let firstRate := Rate.ofGeneration rate 0
  match ← Sizing.blockCapacityBy m 1 firstRate with
  | none => return none
  | some least =>
    let base := max (max count least) 1
    let first ← Bloom.ofCountBy m a base firstRate
    return some ⟨#[], first, base, rate, base, 0⟩

def ofCount (a : Allocator) (count : Nat) (rate : Float) :
    Except FilterError (Option ScalableBloom) :=
  ofCountBy Rate.poisson a count rate

def planned (a : Allocator) (items : Nat) (rate : Float) :
    Except FilterError (Option ScalableBloom) := do
  if items = 0 then throw (.itemCount 0)
  ofCount a items rate

def sizeInBytes (f : ScalableBloom) : Nat :=
  f.levels.foldl (fun bytes level => bytes + level.sizeInBytes) 0

/-- Makes `level` the newest generation. -/
def start (f : ScalableBloom) (level : Bloom) : ScalableBloom :=
  { f with older := f.levels, newest := level, countdown := f.capacityOf (f.generation + 1) }

def levelBytes : Nat := 24

/-- The next generation, of the size that the model asks for, once there is room for one more. -/
def nextLevel (m : Rate.Model) (a : Allocator) (f : ScalableBloom) :
    Except FilterError (Nat × Bloom) := do
  let next := f.generation + 1
  let bytes ← Sizing.bytesNeededBy m (f.capacityOf next) (Rate.ofGeneration f.rate next)
  let level ← Bloom.ofBytes a bytes
  a.request [.room 1 levelBytes next]
  return (bytes, level)

/-- Starts a generation of twice the capacity, which must fit in 64 bits. -/
def growBy (m : Rate.Model) (a : Allocator) (f : ScalableBloom) : Logged (Outcome ScalableBloom) :=
  let next := f.generation + 1
  let capacity := f.capacityOf next
  if next < maxGenerations ∧ capacity < 2 ^ 64 then
    match f.nextLevel m a with
    | .error e => pure (.failed f e)
    | .ok (bytes, level) =>
      let f := f.start level
      .report (.done f) (.generationAdded next capacity bytes f.sizeInBytes)
  else
    pure (.failed f (.capacityExceeded maxGenerations "generations"))

def grow (a : Allocator) (f : ScalableBloom) : Logged (Outcome ScalableBloom) :=
  f.growBy Rate.poisson a

/-- Adds a hash to the newest generation, which has room for it. -/
def record (f : ScalableBloom) (hash : UInt64) : ScalableBloom :=
  match f with
  | ⟨older, newest, base, rate, countdown, count⟩ =>
    ⟨older, newest.insert hash, base, rate, countdown - 1, count + 1⟩

/-- Adds a hash, growing first if the newest generation is full. -/
def insertBy (m : Rate.Model) (a : Allocator) (f : ScalableBloom) (hash : UInt64) :
    Logged (Outcome ScalableBloom) :=
  if f.countdown = 0 then do
    match ← f.growBy m a with
    | ⟨f, some e⟩ => return .failed f e
    | ⟨f, none⟩ => return .done (f.record hash)
  else
    pure (.done (f.record hash))

def insert (a : Allocator) (f : ScalableBloom) (hash : UInt64) : Logged (Outcome ScalableBloom) :=
  f.insertBy Rate.poisson a hash

def contains (f : ScalableBloom) (hash : UInt64) : Bool :=
  f.newest.contains hash || f.older.any (·.contains hash)

def insert32 (a : Allocator) (f : ScalableBloom) (hash : UInt32) :
    Logged (Outcome ScalableBloom) :=
  f.insert a (ShortHash.toLowHalf hash)

def contains32 (f : ScalableBloom) (hash : UInt32) : Bool :=
  f.contains (ShortHash.toLowHalf hash)

def isEmpty (f : ScalableBloom) : Bool := f.count == 0

/-- The same filter in new arrays. If the one for the generations is refused, the failure names the size
of the filter. -/
def copy (a : Allocator) (f : ScalableBloom) : Except FilterError ScalableBloom :=
  match a.request [.fresh 0 (levelBytes * f.levels.size)] with
  | .error _ => .error (.allocationRefused f.sizeInBytes)
  | .ok () => do
    a.request <| f.levels.toList.zipIdx.map fun (level, i) => .fresh (i + 1) level.sizeInBytes
    return f

end ScalableBloom

end ApproxSet

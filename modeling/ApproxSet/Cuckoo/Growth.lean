import ApproxSet.Cuckoo.Basic

/-!
# Growth and union

A filter that is nearly full, or has stashed too much, doubles both sides before it takes another
hash. Growth needs no hashes: every entry gives back its stem, the stem is widened by its own tail
bits, and what it becomes is stored in the new tables. Union widens the stems of the smaller filter
into a copy of the larger one in the same way.
-/

namespace ApproxSet.Cuckoo

/-- Stashed entries that are tolerated. -/
def maxStash : Nat := 8

/-- Is the filter more than nine tenths full, within a bucket of full, or its stash too large? -/
def growthDue (f : Cuckoo) : Bool :=
  decide (10 * f.occupied > 9 * f.capacity)
    || decide (f.occupied + Bucket.slotCount ≥ f.capacity)
    || decide (f.stashSize > maxStash)

/-- Stores a stem of a filter with `2 ^ oldLogSide` buckets on side `s`. -/
def absorb (a : Allocator) (oldLogSide : Nat) (f : Cuckoo) (s : Side) (stem : Stem) :
    Logged (Except FilterError Cuckoo) :=
  let p := f.entropy.get s
  let logSide := f.logSide
  Logged.foldTry
    (fun f part => Outcome.toExcept <$> f.insertEntry a s (.ofStem p logSide part)) f
    (stem.widen oldLogSide logSide)

/-- Doubles both sides and moves every entry. The chooser goes on where it was. -/
def grow (a : Allocator) (f : Cuckoo) : Logged (Except FilterError Cuckoo) :=
  match vacant a (f.logSide + 1) f.entropy with
  | .error e => pure (.error e)
  | .ok next => do
    let next := { next with chooser := f.chooser, generation := f.generation + 1 }
    match ← Logged.foldTry (fun g (s, stem) => absorb a f.logSide g s stem) next f.stems with
    | .error e => return .error e
    | .ok grown =>
      .report (.ok grown)
        (.doubled grown.generation grown.logSide grown.occupied grown.stashSize)

/-- Grows as long as growth is due, at most `limit` times. -/
def growWhileDue (a : Allocator) : (limit : Nat) → Cuckoo → Logged (Outcome Cuckoo)
  | 0, f => pure (.done f)
  | limit + 1, f =>
    if f.growthDue then do
      match ← f.grow a with
      | .error e => return .failed f e
      | .ok f => growWhileDue a limit f
    else pure (.done f)

/-- Grows until there is room. Growth stops by itself before side sizes run out. -/
def makeRoom (a : Allocator) (f : Cuckoo) : Logged (Outcome Cuckoo) :=
  growWhileDue a (maxLogSide + 1 - f.logSide) f

def store (a : Allocator) (f : Cuckoo) (hash : UInt64) : Logged (Outcome Cuckoo) :=
  f.insertEntry a .left (f.entryOf .left hash)

/-- Adds a hash, growing first while growth is due. Growth that succeeded is kept when a further
growth fails, or when there is no room to stash an entry then. -/
def insert (a : Allocator) (f : Cuckoo) (hash : UInt64) : Logged (Outcome Cuckoo) := do
  match ← f.makeRoom a with
  | ⟨f, some e⟩ => return .failed f e
  | ⟨f, none⟩ => f.store a hash

def insert32 (a : Allocator) (f : Cuckoo) (hash : UInt32) : Logged (Outcome Cuckoo) :=
  f.insert a (ShortHash.toHighHalf hash)

/-- Makes room in `f` and stores a stem of a filter with `2 ^ oldLogSide` buckets there. -/
def absorbWithRoom (a : Allocator) (oldLogSide : Nat) (f : Cuckoo) (entry : Side × Stem) :
    Logged (Except FilterError Cuckoo) := do
  match ← f.makeRoom a with
  | ⟨_, some e⟩ => return .error e
  | ⟨f, none⟩ => absorb a oldLogSide f entry.1 entry.2

/-- The larger filter, then the other one. -/
def bySize (f g : Cuckoo) : Cuckoo × Cuckoo :=
  if f.logSide ≥ g.logSide then (f, g) else (g, f)

/-- A filter that finds what either filter finds. Their permutation keys must be the same. -/
def union (a : Allocator) (f g : Cuckoo) : Logged (Except FilterError Cuckoo) :=
  if f.entropy = g.entropy then
    let (large, small) := bySize f g
    match large.copy a with
    | .error e => pure (.error e)
    | .ok merged => Logged.foldTry (absorbWithRoom a small.logSide) merged small.stems
  else
    pure (.error .differentEntropy)

end ApproxSet.Cuckoo

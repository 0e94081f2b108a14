import ApproxSet.Allocator
import ApproxSet.Cuckoo.Table
import ApproxSet.Logged
import ApproxSet.ShortHash
import ApproxSet.Sizing

/-!
# Cuckoo filters

Two tables of equal size, each with its own permutation. An entry goes to its bucket on the left; if
that is full it takes the place of another, which moves to its bucket on the right, and so on. An
entry that finds no place in five hundred moves is stashed, so none is ever dropped.
-/

namespace ApproxSet

/-- Keys of the two permutations. -/
abbrev Entropy := Both Permutation

def Entropy.standard : Entropy where
  left := .ofWords 0x2ba7538ee1234073 0xfcc3777539b147d6 0x6086c563576347e7 0x52eff34ee1764465
  right := .ofWords 0x8639cbf57f264867 0x5a31ee34f0224ccb 0x07a1cb8140744ee6 0xf2296cf6a6524e9f

structure Cuckoo where
  /-- Logarithm of the buckets on each side. -/
  logSide : Nat
  entropy : Entropy
  tables : Both Table
  chooser : Chooser
  /-- Entries stored, stashes included. -/
  occupied : Nat
  generation : Nat
  deriving DecidableEq

namespace Cuckoo

/-- The largest side that a 64-bit hash can address with a full tail. -/
def maxLogSide : Nat := 48

/-- Moves tried before an entry is stashed. -/
def maxMoves : Nat := 500

structure Valid (f : Cuckoo) : Prop where
  logSide_pos : 1 ≤ f.logSide
  logSide_le : f.logSide ≤ maxLogSide
  left_valid : f.tables.left.Valid f.logSide
  right_valid : f.tables.right.Valid f.logSide

def vacant (a : Allocator) (logSide : Nat) (entropy : Entropy) : Except FilterError Cuckoo := do
  if logSide > maxLogSide then
    throw (.capacityExceeded maxLogSide "log side size")
  let bytes := Table.bucketBytes * 2 ^ logSide
  a.request [.fresh Side.left.number bytes, .fresh Side.right.number bytes]
  return ⟨logSide, entropy, ⟨Table.vacant logSide, Table.vacant logSide⟩, Sampler.start 2, 0, 0⟩

/-- An empty filter of about `bytes` bytes. -/
def ofBytes (a : Allocator) (bytes : Nat) (entropy : Entropy) : Except FilterError Cuckoo :=
  vacant a (Sizing.cuckooLogSide bytes) entropy

def capacity (f : Cuckoo) : Nat := 2 * Bucket.slotCount * 2 ^ f.logSide

def stashSize (f : Cuckoo) : Nat := f.tables.left.stash.size + f.tables.right.stash.size

def sizeInBytes (f : Cuckoo) : Nat := f.tables.left.sizeInBytes + f.tables.right.sizeInBytes

def isEmpty (f : Cuckoo) : Bool := f.occupied == 0

/-- Where `hash` belongs on a side. -/
def entryOf (f : Cuckoo) (s : Side) (hash : UInt64) : Entry :=
  .ofHash (f.entropy.get s) f.logSide hash

def contains (f : Cuckoo) (hash : UInt64) : Bool :=
  f.tables.left.covers (f.entryOf .left hash) || f.tables.right.covers (f.entryOf .right hash)

def contains32 (f : Cuckoo) (hash : UInt32) : Bool := f.contains (ShortHash.toHighHalf hash)

/-- The entry of the other side that stands for the same hashes. -/
def cross (f : Cuckoo) (s : Side) (e : Entry) : Entry :=
  .ofStem (f.entropy.get s.other) f.logSide (e.toStem (f.entropy.get s) f.logSide)

def place (f : Cuckoo) (s : Side) (e : Entry) : Table.Placement × Cuckoo :=
  match f with
  | ⟨logSide, entropy, tables, chooser, occupied, generation⟩ =>
    match tables.update s fun t => t.place e chooser with
    | ((placement, chooser), tables) =>
      (placement, ⟨logSide, entropy, tables, chooser, occupied, generation⟩)

def countOne (f : Cuckoo) : Cuckoo := { f with occupied := f.occupied + 1 }

def pushStash (f : Cuckoo) (s : Side) (e : Entry) : Cuckoo :=
  match f with
  | ⟨logSide, entropy, tables, chooser, occupied, generation⟩ =>
    ⟨logSide, entropy, (tables.update s fun t => ((), t.pushStash e)).2, chooser, occupied,
      generation⟩

/-- Places an entry, and what it evicts on the other side, and so on for `moves` evictions; the last
entry evicted is stashed. An entry already covered where it is placed needs no place. -/
def settle : (moves : Nat) → Cuckoo → Side → Entry → Logged Cuckoo
  | moves, f, s, e =>
    match f.place s e with
    | (.stored, f) => pure f.countOne
    | (.covered, f) => pure f
    | (.evicted victim, f) =>
      match moves with
      | 0 =>
        let f := (f.pushStash s victim).countOne
        .report f (.stashed s f.stashSize f.logSide)
      | moves + 1 => settle moves f s.other (f.cross s victim)

/-- Room for one more entry in either stash. Stashes are numbered by size and side, since growth makes
new ones. -/
def stashRoom (f : Cuckoo) : List Request :=
  [Side.left, .right].map fun s =>
    .room (2 * f.logSide + s.number) Table.stashEntryBytes (f.tables.get s).stash.size

/-- Settles an entry, once there is room to stash whatever is evicted last. -/
def insertEntry (a : Allocator) (f : Cuckoo) (s : Side) (e : Entry) : Logged (Outcome Cuckoo) :=
  match a.request f.stashRoom with
  | .error refusal => pure (.failed f refusal)
  | .ok () => Outcome.done <$> settle maxMoves f s e

/-- The same filter in new arrays, buckets before stash on either side. -/
def copy (a : Allocator) (f : Cuckoo) : Except FilterError Cuckoo := do
  a.request <| [Side.left, .right].flatMap fun s =>
    let t := f.tables.get s
    [.fresh (2 + s.number) (Table.bucketBytes * t.buckets.size),
      .fresh (4 + s.number) (Table.stashEntryBytes * t.stash.size)]
  return f

/-- The stems of all stored entries: left before right, each side's stash first. -/
def stems (f : Cuckoo) : List (Side × Stem) :=
  f.tables.left.entries.map (fun e => (.left, e.toStem f.entropy.left f.logSide))
    ++ f.tables.right.entries.map (fun e => (.right, e.toStem f.entropy.right f.logSide))

end Cuckoo

end ApproxSet

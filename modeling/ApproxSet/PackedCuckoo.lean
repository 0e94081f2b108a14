import ApproxSet.Cuckoo.Growth
import ApproxSet.Word.Lanes

/-!
# Packed cuckoo filters

A read-only copy of a cuckoo filter without tails: the four fingerprints of a bucket fill five bytes
and are compared at once. A vacant slot packs as fingerprint zero, so a query with fingerprint zero
is always answered with yes.
-/

namespace ApproxSet

/-- Fingerprints of both sides, packed. -/
structure PackedCuckoo where
  logSide : Nat
  entropy : Entropy
  /-- The left buckets, then the right ones. -/
  data : Array UInt8
  /-- Bucket and fingerprint of the stashed entries. -/
  stashes : Both (Array UInt64)
  deriving DecidableEq

namespace PackedCuckoo

def bucketBytes : Nat := 5

structure Valid (f : PackedCuckoo) : Prop where
  logSide_pos : 1 ≤ f.logSide
  logSide_le : f.logSide ≤ Cuckoo.maxLogSide
  size_eq : f.data.size = 2 * bucketBytes * 2 ^ f.logSide

def laneOf (s : Slot) : UInt64 :=
  if s.isVacant then 0 else s.fingerprint.toUInt64

/-- Four fingerprints in one word, the first one lowest. -/
def wordOf (b : Bucket) : UInt64 :=
  b.foldr (fun s lanes => laneOf s ||| (lanes <<< 10)) 0

def bytesOf (w : UInt64) : Array UInt8 :=
  #[w.toUInt8, (w >>> 8).toUInt8, (w >>> 16).toUInt8, (w >>> 24).toUInt8, (w >>> 32).toUInt8]

def wordAt (data : Array UInt8) (i : Nat) : UInt64 :=
  (data.getD i 0).toUInt64 ||| ((data.getD (i + 1) 0).toUInt64 <<< 8)
    ||| ((data.getD (i + 2) 0).toUInt64 <<< 16) ||| ((data.getD (i + 3) 0).toUInt64 <<< 24)
    ||| ((data.getD (i + 4) 0).toUInt64 <<< 32)

def packTable (t : Table) : Array UInt8 :=
  t.buckets.flatMap fun b => bytesOf (wordOf b)

def pack (f : Cuckoo) : PackedCuckoo :=
  let data := packTable f.tables.left ++ packTable f.tables.right
  let stashes := f.tables.map fun t => t.stash.map Entry.permuted
  ⟨f.logSide, f.entropy, data, stashes⟩

def stashEntryBytes : Nat := 8

/-- Memory for the bytes of all buckets, and for the stashes one entry after the other. -/
def requests (f : Cuckoo) : List Request :=
  .fresh 0 (2 * f.tables.left.buckets.size * bucketBytes) ::
    [Side.left, .right].flatMap fun s =>
      (List.range (f.tables.get s).stash.size).map fun held =>
        .room s.number stashEntryBytes held

def ofCuckoo (a : Allocator) (f : Cuckoo) : Logged (Except FilterError PackedCuckoo) :=
  match a.request (requests f) with
  | .error e => pure (.error e)
  | .ok () =>
    let packed := pack f
    .report (.ok packed) (.packed f.logSide packed.data.size f.stashSize)

def offset (f : PackedCuckoo) (s : Side) (bucket : UInt64) : Nat :=
  let sideBuckets := f.data.size / (2 * bucketBytes)
  (s.number * sideBuckets + bucket.toNat) * bucketBytes

def sideContains (f : PackedCuckoo) (hash : UInt64) (s : Side) : Bool :=
  let e := Entry.ofHash (f.entropy.get s) f.logSide hash
  (f.stashes.get s).contains e.permuted
    || e.slot.fingerprint == 0
    || Lanes.anyEq (wordAt f.data (f.offset s e.bucket)) e.slot.fingerprint.toUInt64

def contains (f : PackedCuckoo) (hash : UInt64) : Bool :=
  f.sideContains hash .left || f.sideContains hash .right

def contains32 (f : PackedCuckoo) (hash : UInt32) : Bool := f.contains (ShortHash.toHighHalf hash)

def sizeInBytes (f : PackedCuckoo) : Nat :=
  f.data.size + 8 * (f.stashes.left.size + f.stashes.right.size)

end PackedCuckoo

end ApproxSet

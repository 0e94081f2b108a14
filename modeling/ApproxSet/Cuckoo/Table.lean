import ApproxSet.Both
import ApproxSet.Cuckoo.Bucket
import ApproxSet.Entry
import ApproxSet.Sampler

/-!
# Tables

One side of a cuckoo filter: buckets, and a stash for entries that found no place.
-/

namespace ApproxSet

/-- Draws one of the four places of a bucket. -/
abbrev Chooser := Sampler 2

/-- One side of a cuckoo filter. -/
structure Table where
  buckets : Array Bucket
  stash : Array Entry
  deriving DecidableEq

namespace Table

/-- All buckets are there, and the stash holds entries of this side. -/
structure Valid (t : Table) (logSide : Nat) : Prop where
  size_eq : t.buckets.size = 2 ^ logSide
  stash_valid : ∀ e ∈ t.stash, e.bucket.toNat < 2 ^ logSide ∧ e.slot.isVacant = false

def bucketBytes : Nat := 8

def stashEntryBytes : Nat := 16

def vacant (logSide : Nat) : Table := ⟨Array.replicate (2 ^ logSide) Bucket.vacant, #[]⟩

def bucketAt (t : Table) (bucket : UInt64) : Bucket :=
  t.buckets.getD bucket.toNat Bucket.vacant

def setBucket (t : Table) (bucket : UInt64) (b : Bucket) : Table :=
  match t with
  | ⟨buckets, stash⟩ => ⟨buckets.setIfInBounds bucket.toNat b, stash⟩

def pushStash (t : Table) (e : Entry) : Table :=
  match t with
  | ⟨buckets, stash⟩ => ⟨buckets, stash.push e⟩

/-- What becomes of an entry placed in its bucket. -/
inductive Placement where
  | stored
  | covered
  /-- It took the place of `victim`. -/
  | evicted (victim : Entry)

/-- Places an entry in its bucket, in a drawn place if the bucket is full. -/
def place (t : Table) (e : Entry) (chooser : Chooser) : (Placement × Chooser) × Table :=
  let b := t.bucketAt e.bucket
  match b.receive e.slot with
  | .stored b => ((.stored, chooser), t.setBucket e.bucket b)
  | .covered => ((.covered, chooser), t)
  | .full =>
    let (drawn, next) := chooser.draw
    let i : Fin 4 := Fin.ofNat 4 drawn
    ((.evicted { e with slot := b[i] }, next), t.setBucket e.bucket (b.set i e.slot))

def covers (t : Table) (query : Entry) : Bool :=
  t.stash.any (fun e => e.bucket == query.bucket && e.slot.covers query.slot)
    || (t.bucketAt query.bucket).covers query.slot

/-- Every stored entry: the stash, then the buckets in order. -/
def entries (t : Table) : List Entry :=
  t.stash.toList ++ t.buckets.toList.zipIdx.flatMap fun (b, i) =>
    (Bucket.occupants b).map fun s => ⟨UInt64.ofNat i, s⟩

def sizeInBytes (t : Table) : Nat :=
  t.buckets.size * bucketBytes + t.stash.size * stashEntryBytes

end Table

end ApproxSet

import ApproxSet.Proofs.Cuckoo.Bounds
import ApproxSet.Proofs.PackedCuckoo.Layout

/-!
# Byte indices

A packed filter holds five bytes for each bucket of both sides, so the five bytes of a bucket in
range are there to be read, whatever they hold. Packing writes the bytes of one bucket after the
other into an array of that size.
-/

namespace ApproxSet.PackedCuckoo

/-! ## Lookups -/

/-- The five bytes at `i`, if all of them are there. -/
def wordAt? (data : Array UInt8) (i : Nat) : Option UInt64 := do
  let b₀ ← data[i]?
  let b₁ ← data[i + 1]?
  let b₂ ← data[i + 2]?
  let b₃ ← data[i + 3]?
  let b₄ ← data[i + 4]?
  some (b₀.toUInt64 ||| (b₁.toUInt64 <<< 8) ||| (b₂.toUInt64 <<< 16) ||| (b₃.toUInt64 <<< 24)
    ||| (b₄.toUInt64 <<< 32))

def sideContains? (f : PackedCuckoo) (hash : UInt64) (s : Side) : Option Bool := do
  let e := Entry.ofHash (f.entropy.get s) f.logSide hash
  let w ← wordAt? f.data (f.offset s e.bucket)
  some ((f.stashes.get s).contains e.permuted
    || e.slot.fingerprint == 0
    || Lanes.anyEq w e.slot.fingerprint.toUInt64)

/-- A lookup that stops where a byte is not there. -/
def contains? (f : PackedCuckoo) (hash : UInt64) : Option Bool := do
  let left ← f.sideContains? hash .left
  let right ← f.sideContains? hash .right
  some (left || right)

theorem wordAt?_eq {data : Array UInt8} {i : Nat} (h : i + bucketBytes ≤ data.size) :
    wordAt? data i = some (wordAt data i) := by
  have hbyte (j : Nat) (hj : j < bucketBytes) :
      data[i + j]? = some (data.getD (i + j) 0) := by
    have hlt : i + j < data.size := by omega
    simp [hlt]
  have hfirst := hbyte 0 (by decide)
  rw [Nat.add_zero] at hfirst
  unfold wordAt?
  rw [hfirst, hbyte 1 (by decide), hbyte 2 (by decide), hbyte 3 (by decide), hbyte 4 (by decide)]
  rfl

theorem offset_add_le {f : PackedCuckoo} (hf : f.Valid) (s : Side) {bucket : UInt64}
    (h : bucket.toNat < 2 ^ f.logSide) : f.offset s bucket + bucketBytes ≤ f.data.size := by
  have hside : s.number ≤ 1 := by cases s <;> decide
  have hnumber : s.number * 2 ^ f.logSide ≤ 1 * 2 ^ f.logSide := Nat.mul_le_mul_right _ hside
  rw [offset_eq hf, hf.size_eq, bucketBytes]
  omega

theorem sideContains?_eq {f : PackedCuckoo} (hf : f.Valid) (hash : UInt64) (s : Side) :
    f.sideContains? hash s = some (f.sideContains hash s) := by
  have hbucket := Entry.bucket_ofHash_lt (f.entropy.get s) hf.logSide_le hash
  unfold sideContains?
  simp only [wordAt?_eq (offset_add_le hf s hbucket)]
  rfl

theorem contains?_eq {f : PackedCuckoo} (hf : f.Valid) (hash : UInt64) :
    f.contains? hash = some (f.contains hash) := by
  unfold contains?
  rw [sideContains?_eq hf, sideContains?_eq hf]
  rfl

/-! ## Packing -/

/-- Writes bytes from place `i` on, and stops where they do not fit. -/
def write? (data : List UInt8) (i : Nat) (bytes : List UInt8) : Option (List UInt8) :=
  if i + bytes.length ≤ data.length then
    some (data.take i ++ bytes ++ data.drop (i + bytes.length))
  else none

def writeBucket? (data : List UInt8) (x : Bucket × Nat) : Option (List UInt8) :=
  write? data (x.2 * bucketBytes) (bytesOf (wordOf x.1)).toList

/-- Writes each bucket to its place in an array of the full size. Right buckets are numbered on from
the number of left ones. -/
def pack? (f : Cuckoo) : Option PackedCuckoo := do
  let sideBuckets := f.tables.left.buckets.size
  let blank := List.replicate (2 * sideBuckets * bucketBytes) 0
  let buckets := f.tables.left.buckets.toList.zipIdx ++
    f.tables.right.buckets.toList.zipIdx sideBuckets
  let data ← buckets.foldlM writeBucket? blank
  some ⟨f.logSide, f.entropy, data.toArray, f.tables.map fun t => t.stash.map Entry.permuted⟩

def ofCuckoo? (a : Allocator) (f : Cuckoo) : Option (Except FilterError PackedCuckoo) :=
  match a.request (requests f) with
  | .error e => some (.error e)
  | .ok () => (pack? f).map .ok

theorem write?_append (front : List UInt8) {back bytes : List UInt8}
    (h : bytes.length ≤ back.length) :
    write? (front ++ back) front.length bytes =
      some (front ++ bytes ++ back.drop bytes.length) := by
  unfold write?
  rw [if_pos (by rw [List.length_append]; omega), List.take_left, List.drop_length_add_append]

/-- Writing goes on where it stopped, and uses up the space that is left. -/
theorem foldlM_writeBucket? (buckets : List Bucket) (k : Nat) (front : List UInt8)
    {back : List UInt8}
    (hfront : front.length = k * bucketBytes) (hback : back.length = buckets.length * bucketBytes) :
    (buckets.zipIdx k).foldlM writeBucket? (front ++ back) =
      some (front ++ buckets.flatMap fun b => (bytesOf (wordOf b)).toList) := by
  induction buckets generalizing k front back with
  | nil =>
      have hempty : back = [] := List.length_eq_zero_iff.mp (by simpa using hback)
      simp [hempty]
  | cons b buckets ih =>
      have hlen := length_bytesOf (wordOf b)
      rw [List.length_cons, Nat.add_mul, Nat.one_mul] at hback
      have hfits : (bytesOf (wordOf b)).toList.length ≤ back.length := by omega
      rw [List.zipIdx_cons, List.foldlM_cons, writeBucket?, ← hfront, write?_append front hfits,
        List.flatMap_cons, ← List.append_assoc]
      apply ih
      · rw [List.length_append, hlen, hfront, Nat.add_mul, Nat.one_mul]
      · rw [List.length_drop, hlen]
        omega

theorem pack?_eq {f : Cuckoo} (hf : f.Valid) : pack? f = some (pack f) := by
  have hzip : f.tables.left.buckets.toList.zipIdx ++
      f.tables.right.buckets.toList.zipIdx f.tables.left.buckets.size = (bucketsOf f).zipIdx := by
    rw [bucketsOf, List.zipIdx_append, Array.length_toList, Nat.zero_add]
  have hblank : (List.replicate (2 * f.tables.left.buckets.size * bucketBytes) (0 : UInt8)).length =
      (bucketsOf f).length * bucketBytes := by
    rw [List.length_replicate, length_bucketsOf hf, hf.left_valid.size_eq]
  have hwrite := foldlM_writeBucket? (bucketsOf f) 0 [] (by simp) hblank
  unfold pack?
  rw [List.nil_append, List.nil_append, ← toList_data] at hwrite
  simp only [hzip, hwrite]
  rfl

theorem ofCuckoo?_eq (a : Allocator) {f : Cuckoo} (hf : f.Valid) :
    ofCuckoo? a f = some (ofCuckoo a f).value := by
  rw [ofCuckoo_value]
  unfold ofCuckoo?
  cases a.request (requests f) with
  | error e => rfl
  | ok _ =>
      simp only [pack?_eq hf]
      rfl

end ApproxSet.PackedCuckoo

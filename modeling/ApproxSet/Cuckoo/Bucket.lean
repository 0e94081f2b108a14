import ApproxSet.Slot

/-!
# Buckets

Four slots, searched in order. A slot offered to a bucket goes to the first vacant place unless a
slot before that place already covers it.
-/

namespace ApproxSet

abbrev Bucket := Vector Slot 4

namespace Bucket

def slotCount : Nat := 4

def vacant : Bucket := Vector.replicate 4 Slot.vacant

/-- What becomes of a slot offered to a bucket. -/
inductive Reception where
  | stored (bucket : Bucket)
  /-- A slot there already covers it. -/
  | covered
  | full

def receive (b : Bucket) (s : Slot) : Reception :=
  match b.findFinIdx? fun t => t.isVacant || t.covers s with
  | some i => if b[i].isVacant then .stored (b.set i s) else .covered
  | none => .full

def covers (b : Bucket) (query : Slot) : Bool :=
  b.any (·.covers query)

def occupants (b : Bucket) : List Slot :=
  b.toList.filter (!·.isVacant)

end Bucket

end ApproxSet

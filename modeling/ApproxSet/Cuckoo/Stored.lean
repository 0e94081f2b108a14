import ApproxSet.Codec
import ApproxSet.Cuckoo.Basic

/-!
# Stored cuckoo filters

Each side as its permutation, its buckets and its stash; then the side size, the chooser, the
permutation keys once more, the number of entries and the generation. Reading takes all fields first
and then checks the side size, the sides in order, and the width of draws.
-/

namespace ApproxSet

def Permutation.codec : Codec Permutation :=
  (Codec.word64.vector 4).iso
    (fun k => .ofWords k[0] k[1] k[2] k[3])
    (fun p => #v[p.first.multiplier, p.first.summand, p.second.multiplier, p.second.summand])

def Slot.codec : Codec Slot := Codec.word16.iso Slot.mk Slot.word

/-- The bucket, then the slot. -/
def Entry.codec : Codec Entry :=
  (Codec.word64.pair Slot.codec).iso (fun (b, s) => ⟨b, s⟩) (fun e => (e.bucket, e.slot))

/-- Buckets, then stash. -/
def Table.codec : Codec Table :=
  ((Slot.codec.vector 4).array.pair Entry.codec.array).iso
    (fun (buckets, stash) => ⟨buckets, stash⟩) (fun t => (t.buckets, t.stash))

/-- One value for the left side, then one for the right. -/
def Both.codec {α : Type} (c : Codec α) : Codec (Both α) :=
  (c.pair c).iso (fun (l, r) => ⟨l, r⟩) (fun b => (b.left, b.right))

namespace Cuckoo

/-- The state of the chooser with its width. -/
structure StoredChooser where
  state : UInt64
  increment : UInt64
  word : UInt32
  left : Nat
  width : Nat
  deriving DecidableEq

namespace StoredChooser

/-- The five fields in order. -/
def codec : Codec StoredChooser :=
  (Codec.word64.pair (Codec.word64.pair (Codec.word32.pair ((Codec.nat 4).pair (Codec.nat 4))))).iso
    (fun (state, increment, word, left, width) => ⟨state, increment, word, left, width⟩)
    (fun c => (c.state, c.increment, c.word, c.left, c.width))

def ofChooser (c : Chooser) : StoredChooser :=
  ⟨c.stream.state, c.stream.increment, c.word, c.left, 2⟩

def toChooser (c : StoredChooser) : Chooser :=
  ⟨⟨c.state, c.increment⟩, c.word, c.left⟩

end StoredChooser

structure Record where
  sides : Both (Permutation × Table)
  logSide : Nat
  chooser : StoredChooser
  entropy : Entropy
  occupied : Nat
  generation : Nat
  deriving DecidableEq

namespace Record

def codec : Codec Record :=
  ((Both.codec (Permutation.codec.pair Table.codec)).pair
    ((Codec.nat 4).pair
      (StoredChooser.codec.pair
        ((Both.codec Permutation.codec).pair ((Codec.nat 8).pair (Codec.nat 4)))))).iso
    (fun (sides, logSide, chooser, entropy, occupied, generation) =>
      ⟨sides, logSide, chooser, entropy, occupied, generation⟩)
    (fun r => (r.sides, r.logSide, r.chooser, r.entropy, r.occupied, r.generation))

def ofCuckoo (f : Cuckoo) : Record where
  sides := ⟨(f.entropy.left, f.tables.left), (f.entropy.right, f.tables.right)⟩
  logSide := f.logSide
  chooser := .ofChooser f.chooser
  entropy := f.entropy
  occupied := f.occupied
  generation := f.generation

/-- Refuses a side of the wrong size, with a foreign or vacant stash entry, or with a permutation
that is not the one given. -/
def checkSide (logSide : Nat) (p : Permutation) (side : Permutation × Table) :
    Except Defect Unit :=
  if side.2.buckets.size ≠ 2 ^ logSide then
    .error (.bucketCount side.2.buckets.size (2 ^ logSide))
  else if side.2.stash.any fun e => decide (e.bucket.toNat ≥ 2 ^ logSide) || e.slot.isVacant then
    .error .stashEntry
  else if side.1 ≠ p then
    .error .foreignPermutation
  else
    .ok ()

def accept (r : Record) : Except Defect Cuckoo := do
  if r.logSide = 0 ∨ r.logSide > maxLogSide then
    throw (.cuckooSideSize r.logSide)
  checkSide r.logSide r.entropy.left r.sides.left
  checkSide r.logSide r.entropy.right r.sides.right
  if r.chooser.width ≠ 2 then
    throw (.drawWidth r.chooser.width)
  return ⟨r.logSide, r.entropy, ⟨r.sides.left.2, r.sides.right.2⟩, r.chooser.toChooser,
    r.occupied, r.generation⟩

end Record

def codec : Codec Cuckoo := Record.codec.refine Record.accept Record.ofCuckoo

end Cuckoo

end ApproxSet

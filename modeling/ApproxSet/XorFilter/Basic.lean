import ApproxSet.Allocator
import ApproxSet.Logged
import ApproxSet.Rate
import ApproxSet.ShortHash
import ApproxSet.XorFilter.Peeling

/-!
# Xor filters

Built once from a complete list of keys: the table satisfies the equation of every key's edge, and a
query checks the equation of its own. Keys are mixed with a seed and taken as a set. Table sizes are
tried in turn until one can be solved.
-/

namespace ApproxSet

structure XorFilter where
  table : Array UInt8
  /-- Slots among which one key's slots lie. -/
  window : Nat
  seed : UInt64
  deriving DecidableEq

namespace XorFilter

/-- Tables grow by this many slots, and have no fewer. -/
def sizeStep : Nat := 8

def maxAttempts : Nat := 64

/-- The window holds three slots and lies in the table. -/
def Valid (f : XorFilter) : Prop :=
  sizeStep ≤ f.table.size ∧ 3 ≤ f.window ∧ f.window ≤ f.table.size

instance (f : XorFilter) : Decidable f.Valid :=
  inferInstanceAs (Decidable (_ ∧ _ ∧ _))

/-- The first table size for `keys` keys: 1.23 slots for each, in whole steps. -/
def firstSize (keys : Nat) : Nat :=
  let slots := (Rate.ofCount keys * 1.23).toUInt64.toNat
  max ((slots + (sizeStep - 1)) / sizeStep) 1 * sizeStep

/-- The window of a table: three slots and the size to the power of two thirds. -/
def windowOf (slots : Nat) : Nat :=
  min (3 + ((Rate.ofCount slots).pow (2 / 3)).toUInt64.toNat) slots

def distinct (words : List UInt64) : List UInt64 :=
  let sorted := words.mergeSort fun a b => decide (a ≤ b)
  sorted.foldr (fun w rest => if rest.head? = some w then rest else w :: rest) []

/-- The keys that stand for `hashes` under a seed. -/
def keysOf (hashes : List UInt64) (seed : UInt64) : List UInt64 :=
  distinct (hashes.map (Word.keyed seed))

/-- The table of `slots` slots that satisfies the equations of all keys, if their edges can be
peeled. -/
def encode? (keys : List UInt64) (slots : Nat) : Option (Array UInt8) :=
  let window := windowOf slots
  Peeling.solve? (keys.map fun k => Edge.ofKey k slots window).toArray slots

def hashBytes : Nat := 8

def edgeBytes : Nat := 32

def degreeBytes : Nat := 4

def nameBytes : Nat := 8

def stepBytes : Nat := 16

/-- Memory for the edges, for the degrees and names of all slots, and for the peeling order. -/
def peelingRequests (attempt keys slots : Nat) : List Request :=
  [.fresh (5 * attempt) (edgeBytes * keys), .fresh (5 * attempt + 1) (degreeBytes * slots),
    .fresh (5 * attempt + 2) (nameBytes * slots), .fresh (5 * attempt + 3) (stepBytes * keys)]

/-- Encodes in memory that is asked for. The table is only asked for once its edges are peeled. -/
def encode (a : Allocator) (attempt : Nat) (keys : List UInt64) (slots : Nat) :
    Except FilterError (Option (Array UInt8)) := do
  a.request (peelingRequests attempt keys.length slots)
  match encode? keys slots with
  | none => return none
  | some table =>
    a.request [.fresh (5 * attempt + 4) slots]
    return some table

/-- Tries `left` more table sizes, the next one being number `attempt`. -/
def attempts (a : Allocator) (keys : List UInt64) (seed : UInt64) :
    (left attempt slots : Nat) → Logged (Except FilterError XorFilter)
  | 0, _, _ => pure (.error (.constructionFailed keys.length maxAttempts))
  | left + 1, attempt, slots =>
    match encode a attempt keys slots with
    | .error e => pure (.error e)
    | .ok (some table) =>
      .report (.ok ⟨table, windowOf slots, seed⟩) (.built keys.length slots attempt)
    | .ok none => do
      Logged.report () (.peelFailed keys.length slots attempt)
      attempts a keys seed left (attempt + 1) (slots + sizeStep)

/-- Encodes a list of hashes, which is copied first with all its repetitions. -/
def ofHashes (a : Allocator) (hashes : List UInt64) (seed : UInt64) :
    Logged (Except FilterError XorFilter) :=
  if hashes.isEmpty then
    pure (.error (.itemCount 0))
  else
    match a.request [.fresh 0 (hashBytes * hashes.length)] with
    | .error e => pure (.error e)
    | .ok () =>
      let keys := keysOf hashes seed
      attempts a keys seed maxAttempts 1 (firstSize keys.length)

def contains (f : XorFilter) (hash : UInt64) : Bool :=
  (Edge.ofKey (Word.keyed f.seed hash) f.table.size f.window).check f.table

def contains32 (f : XorFilter) (hash : UInt32) : Bool :=
  f.contains (ShortHash.toLowHalf hash)

def sizeInBytes (f : XorFilter) : Nat := f.table.size

/-- The same filter in a new array. -/
def copy (a : Allocator) (f : XorFilter) : Except FilterError XorFilter := do
  a.request [.fresh 0 f.sizeInBytes]
  return f

end XorFilter

end ApproxSet

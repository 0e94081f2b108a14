import ApproxSet.Word
import ApproxSet.Word.Mix

/-!
# Edges

A key is an edge of a hypergraph on the slots of a table: three distinct slots, all in one window
whose place is drawn from the key, and an eight-bit fingerprint.
-/

namespace ApproxSet

structure Edge where
  first : Nat
  second : Nat
  third : Nat
  fingerprint : UInt8
  deriving DecidableEq

namespace Edge

def vertices (e : Edge) : List Nat := [e.first, e.second, e.third]

/-- From `offset` on and around the window, the first slot that is not `taken`. A window that is
larger than `taken` has one within as many steps as there are slots taken. -/
def freeSlot (start window : Nat) (taken : List Nat) (offset : Nat) : Nat :=
  let candidates := (List.range (taken.length + 1)).map fun k => start + (offset + k) % window
  (candidates.find? fun v => !taken.contains v).getD start

def nextDigits (digits : UInt64) : UInt64 :=
  (digits <<< 21) ||| (digits >>> 43)

/-- The edge of `key` on a table of `slots` slots with windows of `window` slots. -/
def ofKey (key : UInt64) (slots window : Nat) : Edge :=
  let h := Word.mix key
  let start := Word.scale64 h (slots - window)
  let digits := Word.mix (h ^^^ 0x9e3779b97f4a7c15)
  let first := freeSlot start window [] (Word.scale64 digits window)
  let digits := nextDigits digits
  let second := freeSlot start window [first] (Word.scale64 digits window)
  let digits := nextDigits digits
  let third := freeSlot start window [first, second] (Word.scale64 digits window)
  ⟨first, second, third, h.toUInt8⟩

/-- The xor of the fingerprint with the three slots of `table`. -/
def residue (e : Edge) (table : Array UInt8) : UInt8 :=
  e.fingerprint ^^^ table.getD e.first 0 ^^^ table.getD e.second 0 ^^^ table.getD e.third 0

def check (e : Edge) (table : Array UInt8) : Bool :=
  e.residue table == 0

end Edge

end ApproxSet

import ApproxSet.Bloom.Basic

/-!
# Planned block filters

The size chosen for a number of items and a rate, with what the model expects of it.
-/

namespace ApproxSet.Bloom

/-- What a filter was sized for. -/
structure Plan where
  items : Nat
  rate : Float
  bytes : Nat
  /-- The modelled rate once all items are in. -/
  expectedRate : Float

namespace Plan

def make (items : Nat) (rate : Float) : Except FilterError Plan := do
  if items = 0 then throw (.itemCount 0)
  let bytes ← Sizing.bytesNeeded items rate
  return ⟨items, rate, bytes, Rate.poisson items bytes⟩

def bitsPerItem (p : Plan) : Float :=
  Rate.ofCount p.bytes * 8 / Rate.ofCount p.items

def build (a : Allocator) (p : Plan) : Except FilterError Bloom := ofBytes a p.bytes

end Plan

def planned (a : Allocator) (items : Nat) (rate : Float) : Except FilterError (Bloom × Plan) := do
  let plan ← Plan.make items rate
  return (← plan.build a, plan)

end ApproxSet.Bloom

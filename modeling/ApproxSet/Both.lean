/-!
# Two sides

A cuckoo filter keeps everything twice, once for each side. `Side` names a side and `Both` holds one
value for each.
-/

namespace ApproxSet

/-- One of the two sides of a cuckoo filter. -/
inductive Side where
  | left
  | right
  deriving DecidableEq

namespace Side

def other : Side → Side
  | left => right
  | right => left

/-- The number of a side, for display. -/
def number : Side → Nat
  | left => 0
  | right => 1

@[simp] theorem other_other (s : Side) : s.other.other = s := by cases s <;> rfl

end Side

structure Both (α : Type) where
  left : α
  right : α
  deriving DecidableEq

namespace Both

variable {α β : Type}

def get (b : Both α) : Side → α
  | .left => b.left
  | .right => b.right

def map (f : α → β) (b : Both α) : Both β :=
  ⟨f b.left, f b.right⟩

/-- Replaces the value of one side, with a result. -/
@[specialize] def update (b : Both α) (s : Side) (f : α → β × α) : β × Both α :=
  match s, b with
  | .left, ⟨l, r⟩ => let (x, l) := f l; (x, ⟨l, r⟩)
  | .right, ⟨l, r⟩ => let (x, r) := f r; (x, ⟨l, r⟩)

end Both

end ApproxSet

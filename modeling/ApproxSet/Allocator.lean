import ApproxSet.Error

/-!
# Allocators

Filters ask for the memory of their arrays before they use it, and fail where it is refused. What is
refused depends on the machine, and whether one more element needs new memory at all on how arrays
grow, so an allocator may answer in any way. Within one operation no two requests are the same, unless
room that was granted is asked for again.
-/

namespace ApproxSet

/-- What memory is asked for. Arrays are numbered within an operation. -/
inductive Request where
  /-- A new array of `bytes` bytes. -/
  | fresh (array bytes : Nat)
  /-- Room for one more element of `bytes` bytes in an array that holds `held`. -/
  | room (array bytes held : Nat)
  deriving DecidableEq

/-- The bytes that a refusal names. -/
def Request.bytes : Request → Nat
  | fresh _ bytes => bytes
  | room _ bytes _ => bytes

/-- Grants some requests for memory. -/
structure Allocator where
  grants : Request → Bool
  /-- Sizes are signed 64-bit numbers. -/
  lt_of_grants_fresh : ∀ array bytes, grants (.fresh array bytes) = true → bytes < 2 ^ 63

namespace Allocator

/-- Refuses new arrays of `limit` bytes and more, and nothing else. -/
def upTo (limit : Nat) : Allocator where
  grants
    | .fresh _ bytes => decide (bytes < min limit (2 ^ 63))
    | .room .. => true
  lt_of_grants_fresh _ _ h := Nat.lt_of_lt_of_le (of_decide_eq_true h) (Nat.min_le_right _ _)

/-- Refuses new arrays of `2 ^ 50` bytes and more. -/
def standard : Allocator := upTo (2 ^ 50)

/-- An array without elements needs no memory. -/
def allows (a : Allocator) (r : Request) : Bool :=
  r.bytes == 0 || a.grants r

/-- Asks for memory in order, up to the first refusal. -/
def request (a : Allocator) (rs : List Request) : Except FilterError Unit :=
  match rs.find? fun r => !a.allows r with
  | none => .ok ()
  | some r => .error (.allocationRefused r.bytes)

end Allocator

end ApproxSet

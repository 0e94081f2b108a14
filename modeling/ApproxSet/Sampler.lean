import ApproxSet.Power

/-!
# Draws of a few bits

A congruential generator whose 64-bit state yields 32-bit words by xor-shift and rotation. A
`Sampler` hands out each word in slices of `width` bits, lowest first; bits left over when fewer
than `width` remain are dropped.
-/

namespace ApproxSet

structure Stream where
  state : UInt64
  increment : UInt64
  deriving DecidableEq

namespace Stream

/-- The stream every new sampler starts from. -/
def start : Stream where
  state := 0x13d26df6f74044b3
  increment := 0x0d09b2d3025545a0

/-- The word read off the present state: its upper half, folded and rotated by its top five bits. -/
def output (s : Stream) : UInt32 :=
  let folded := (((s.state >>> 18) ^^^ s.state) >>> 27).toUInt32
  let turn := (s.state >>> 59).toUInt32
  (folded >>> turn) ||| (folded <<< (32 - turn))

/-- One step of the generator; the increment is made odd. -/
def advance (s : Stream) : Stream :=
  { s with state := s.state * 6364136223846793005 + (s.increment ||| 1) }

end Stream

/-- Hands out the words of a stream in draws of `width` bits. -/
structure Sampler (width : Nat) where
  stream : Stream
  /-- The undrawn bits of the present word, lowest next. -/
  word : UInt32
  left : Nat
  deriving DecidableEq

namespace Sampler

variable {width : Nat}

def start (width : Nat) : Sampler width :=
  ⟨Stream.start, 0, 0⟩

def refill (s : Sampler width) : Sampler width :=
  ⟨s.stream.advance, s.stream.output, 32⟩

def slice (s : Sampler width) : Nat × Sampler width :=
  (s.word.toNat % 2 ^ width,
    { s with word := UInt32.ofNat (s.word.toNat / 2 ^ width), left := s.left - width })

def draw (s : Sampler width) : Nat × Sampler width :=
  if s.left < width then s.refill.slice else s.slice

theorem draw_lt (s : Sampler width) : s.draw.1 < 2 ^ width := by
  unfold draw slice
  split <;> exact Nat.mod_lt _ (Nat.two_pow_pos width)

def skip (s : Sampler width) : Nat → Sampler width
  | 0 => s
  | n + 1 => s.draw.2.skip n

def draws (s : Sampler width) : Nat → List Nat
  | 0 => []
  | n + 1 => s.draw.1 :: s.draw.2.draws n

end Sampler

end ApproxSet

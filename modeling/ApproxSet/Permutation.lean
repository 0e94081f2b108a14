import ApproxSet.Word

/-!
# Keyed permutation of words of any width

A word of `width` bits is cut into a low half of `width / 2` bits and a high half of the rest. Each
round xors one half with a hash of the other and is its own inverse, so running the rounds in the
opposite order undoes the permutation.
-/

namespace ApproxSet

open Word

/-- Key of one round: a hash is a product plus a summand, cut at the width of the whole word. -/
structure Round where
  multiplier : UInt64
  summand : UInt64
  deriving DecidableEq, Inhabited

/-- A permutation is keyed by one round for each half. -/
structure Permutation where
  first : Round
  second : Round
  deriving DecidableEq, Inhabited

structure Halves where
  low : UInt64
  high : UInt64
  deriving DecidableEq

namespace Halves

/-- Cuts the low `width` bits of `x` in two. -/
def split (width : Nat) (x : UInt64) : Halves where
  low := Word.low (width / 2) x
  high := Word.low (width - width / 2) (x >>> UInt64.ofNat (width / 2))

def join (width : Nat) (h : Halves) : UInt64 :=
  (h.high <<< UInt64.ofNat (width / 2)) ||| h.low

end Halves

namespace Round

/-- Hashes the low `cut` bits of `x` to the `width - cut` bits of the other half. -/
def hash (k : Round) (width cut : Nat) (x : UInt64) : UInt64 :=
  Word.low (width - cut)
    ((Word.low cut x * Word.low width k.multiplier + Word.low width k.summand)
      >>> UInt64.ofNat cut)

/-- Xors the low half with a hash of the high one. -/
def mixLow (k : Round) (width : Nat) (h : Halves) : Halves :=
  { h with low := h.low ^^^ k.hash width (width - width / 2) h.high }

/-- Xors the high half with a hash of the low one. -/
def mixHigh (k : Round) (width : Nat) (h : Halves) : Halves :=
  { h with high := h.high ^^^ k.hash width (width / 2) h.low }

theorem mixLow_mixLow (k : Round) (width : Nat) (h : Halves) :
    k.mixLow width (k.mixLow width h) = h := by
  simp only [mixLow, UInt64.xor_assoc, UInt64.xor_self, UInt64.xor_zero]

theorem mixHigh_mixHigh (k : Round) (width : Nat) (h : Halves) :
    k.mixHigh width (k.mixHigh width h) = h := by
  simp only [mixHigh, UInt64.xor_assoc, UInt64.xor_self, UInt64.xor_zero]

end Round

namespace Permutation

def ofWords (a b c d : UInt64) : Permutation :=
  ⟨⟨a, b⟩, ⟨c, d⟩⟩

/-- Permutes the low `width` bits of `x`; bits above them are ignored. -/
def forward (p : Permutation) (width : Nat) (x : UInt64) : UInt64 :=
  (p.second.mixHigh width (p.first.mixLow width (Halves.split width x))).join width

def backward (p : Permutation) (width : Nat) (y : UInt64) : UInt64 :=
  (p.first.mixLow width (p.second.mixHigh width (Halves.split width y))).join width

end Permutation

end ApproxSet

import ApproxSet.Power

/-!
# Doubles as exact numbers

A double is not a number, an infinity, or a sign with a mantissa times a power of two. Decimal
texts are computed from this form in exact integer arithmetic.
-/

namespace ApproxSet.Decimal

/-- What the 64 bits of a double say. -/
inductive Binary64 where
  | notANumber
  | infinite (negative : Bool)
  /-- The number `mantissa * 2 ^ exponent`, with `exponent ≥ -1074` and `mantissa < 2 ^ 53`. -/
  | finite (negative : Bool) (mantissa : Nat) (exponent : Int)
  deriving DecidableEq

namespace Binary64

def ofBits (bits : UInt64) : Binary64 :=
  let n := bits.toNat
  let negative := n.testBit 63
  let fraction := n % 2 ^ 52
  match n / 2 ^ 52 % 2 ^ 11 with
  | 0 => .finite negative fraction (-1074)
  | 2047 => if fraction = 0 then .infinite negative else .notANumber
  | e => .finite negative (2 ^ 52 + fraction) (Int.ofNat e - 1075)

def ofFloat (x : Float) : Binary64 := ofBits x.toBits

end Binary64

structure Ratio where
  num : Nat
  den : Nat
  deriving DecidableEq

namespace Ratio

/-- The number `mantissa * base ^ exponent`. -/
def scaled (mantissa base : Nat) (exponent : Int) : Ratio :=
  match exponent with
  | .ofNat e => ⟨mantissa * base ^ e, 1⟩
  | .negSucc e => ⟨mantissa, base ^ (e + 1)⟩

def le (r s : Ratio) : Bool := decide (r.num * s.den ≤ s.num * r.den)

def lt (r s : Ratio) : Bool := decide (r.num * s.den < s.num * r.den)

/-- Divides `r` by `10 ^ exponent`. -/
def shifted (r : Ratio) (exponent : Int) : Ratio :=
  match exponent with
  | .ofNat e => ⟨r.num, r.den * 10 ^ e⟩
  | .negSucc e => ⟨r.num * 10 ^ (e + 1), r.den⟩

def floor (r : Ratio) : Nat := r.num / r.den

/-- The nearest whole number; a half goes to the even neighbour. -/
def roundHalfEven (r : Ratio) : Nat :=
  let q := r.num / r.den
  let twice := 2 * (r.num % r.den)
  if twice < r.den ∨ twice = r.den ∧ q % 2 = 0 then q else q + 1

/-- The largest `e` with `10 ^ e ≤ r`, for positive `r`. -/
def log10 (r : Ratio) : Int :=
  let guess : Int := (Nat.toDigits 10 r.num).length - (Nat.toDigits 10 r.den).length
  if le (scaled 1 10 guess) r then guess else guess - 1

end Ratio

end ApproxSet.Decimal

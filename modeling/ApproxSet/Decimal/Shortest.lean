import ApproxSet.Decimal.Binary64

/-!
# Shortest decimal of a double

The fewest digits that read back to the same double, nearest to it among those; of two equally near
the larger. The text is positional whatever the size: no exponent, no point in a whole number.

Decimal grids are tried from coarse to fine. If a point of a grid reads back, so does one of the two
neighbours of the value on that grid, so only those are tested.
-/

namespace ApproxSet.Decimal

/-- The number `digits * 10 ^ exponent`. -/
structure Scaled where
  digits : Nat
  exponent : Int
  deriving DecidableEq

/-- The reals that round to one double: between the midpoints to its neighbours, which belong to it
when its mantissa is even. -/
structure Rounding where
  value : Ratio
  lower : Ratio
  upper : Ratio
  closed : Bool

namespace Rounding

/-- The interval around `mantissa * 2 ^ exponent`. Below a power of two the spacing halves. -/
def around (mantissa : Nat) (exponent : Int) : Rounding where
  value := .scaled mantissa 2 exponent
  lower := .scaled
    (if mantissa = 2 ^ 52 ∧ -1074 < exponent then 4 * mantissa - 1 else 4 * mantissa - 2)
    2 (exponent - 2)
  upper := .scaled (4 * mantissa + 2) 2 (exponent - 2)
  closed := mantissa % 2 = 0

def holds (r : Rounding) (x : Scaled) : Bool :=
  let x := Ratio.scaled x.digits 10 x.exponent
  if r.closed then r.lower.le x && x.le r.upper else r.lower.lt x && x.lt r.upper

/-- The nearer neighbour of the value on the grid of `10 ^ exponent` that reads back. -/
def onGrid? (r : Rounding) (exponent : Int) : Option Scaled :=
  let v := r.value.shifted exponent
  let below : Scaled := ⟨v.floor, exponent⟩
  let above : Scaled := ⟨v.floor + 1, exponent⟩
  match r.holds below, r.holds above with
  | true, true => if 2 * (v.num % v.den) < v.den then some below else some above
  | true, false => some below
  | false, true => some above
  | false, false => none

/-- The first grid with a hit, from one digit on; eighteen digits always suffice. -/
def shortest (r : Rounding) : Scaled :=
  let top := r.value.log10
  let found := (List.range 18).findSome? fun i => r.onGrid? (top - Int.ofNat i)
  match found with
  | none => ⟨0, 0⟩
  | some x => if x.digits % 10 = 0 then ⟨x.digits / 10, x.exponent + 1⟩ else x

end Rounding

/-- Digits with the point in its place. -/
def Scaled.positional (x : Scaled) : String :=
  let digits := toString x.digits
  match x.exponent with
  | .ofNat e => digits.pushn '0' e
  | .negSucc e =>
    let places := e + 1
    let padded := ("".pushn '0' (places + 1 - digits.length)) ++ digits
    let whole := padded.toList.take (padded.length - places)
    let fraction := padded.toList.drop (padded.length - places)
    String.ofList whole ++ "." ++ String.ofList fraction

def Binary64.shortestText : Binary64 → String
  | .notANumber => "NaN"
  | .infinite negative => if negative then "-inf" else "inf"
  | .finite negative mantissa exponent =>
    let magnitude :=
      if mantissa = 0 then "0" else (Rounding.around mantissa exponent).shortest.positional
    if negative then "-" ++ magnitude else magnitude

def shortestText (x : Float) : String :=
  (Binary64.ofFloat x).shortestText

end ApproxSet.Decimal

import ApproxSet.Decimal.Binary64

/-!
# Scientific notation with a fixed number of digits

The exact value of a double rounded to a number of significant digits, a half to even; one digit
before the point, then `e` and the exponent without sign or padding.
-/

namespace ApproxSet.Decimal

/-- One digit, a point, the other digits, `e`, the exponent. -/
def scientificDigits (digits : List Char) (exponent : Int) : String :=
  String.ofList (digits.take 1) ++ "." ++ String.ofList (digits.drop 1) ++ "e" ++ toString exponent

/-- A positive ratio with `places + 1` significant digits. -/
def Ratio.scientific (places : Nat) (r : Ratio) : String :=
  let exponent := r.log10
  let rounded := (r.shifted (exponent - Int.ofNat places)).roundHalfEven
  if rounded < 10 ^ (places + 1) then
    scientificDigits (Nat.toDigits 10 rounded) exponent
  else
    scientificDigits (Nat.toDigits 10 (rounded / 10)) (exponent + 1)

/-- The text of a double with `places` digits after the point. -/
def Binary64.scientificText (places : Nat) : Binary64 → String
  | .notANumber => "NaN"
  | .infinite negative => if negative then "-inf" else "inf"
  | .finite negative mantissa exponent =>
    let magnitude :=
      if mantissa = 0 then scientificDigits (List.replicate (places + 1) '0') 0
      else (Ratio.scaled mantissa 2 exponent).scientific places
    if negative then "-" ++ magnitude else magnitude

def scientificText (places : Nat) (x : Float) : String :=
  (Binary64.ofFloat x).scientificText places

end ApproxSet.Decimal

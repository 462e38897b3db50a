import Categorial.Decimal.Binary

/-!
# Fixed places

Numbers with a given number of digits behind the decimal point. The exact value is rounded to the
nearest decimal, a tie to the even one; the sign stays even if nothing else is left.

* `roundHalfEven`: a quotient rounded to a whole number.
* `renderFixed`: the text of a number with the given number of places.
-/

namespace Categorial.Decimal

/-- A quotient rounded to the nearest whole number, a tie to the even one. -/
def roundHalfEven (numerator divisor : Nat) : Nat :=
  let q := numerator / divisor
  let r := numerator % divisor
  if 2 * r < divisor then q
  else if divisor < 2 * r then q + 1
  else if q % 2 = 0 then q else q + 1

/-- The number `mantissa · 2 ^ exponent` in units of the last of the given places. -/
def toPlaces (places mantissa : Nat) (exponent : Int) : Nat :=
  roundHalfEven (mantissa * tenTo places * twoTo exponent.toNat) (twoTo (-exponent).toNat)

/-- A whole number of units of the last place as a text, with at least one digit in front of the
decimal point. -/
def pointText (places units : Nat) : String :=
  let fraction := Nat.toDigits 10 (units % tenTo places)
  let zeros := List.replicate (places - fraction.length) '0'
  toString (units / tenTo places) ++ "." ++ String.ofList (zeros ++ fraction)

/-- A number with the given number of digits behind the point. -/
def renderFixed (places : Nat) (x : Float) : String :=
  match decode x with
  | .notANumber => "nan"
  | .infinite negative => sign negative ++ "inf"
  | .finite negative m e => sign negative ++ pointText places (toPlaces places m e)

end Categorial.Decimal

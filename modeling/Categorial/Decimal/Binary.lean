/-!
# Binary numbers

What a floating-point number of 64 bits stands for: an infinity, no number, or a sign and a whole
number times a power of two.

* `decode`: the parts of a number, read off its bits.
-/

namespace Categorial.Decimal

/-- The meaning of a floating-point number. -/
inductive Binary
  | notANumber
  | infinite (negative : Bool)
  /-- The number `mantissa · 2 ^ exponent`, or its negation. -/
  | finite (negative : Bool) (mantissa : Nat) (exponent : Int)
  deriving DecidableEq

/-- A power of two. -/
def twoTo (n : Nat) : Nat :=
  Nat.pow 2 n

/-- A power of ten. -/
def tenTo (n : Nat) : Nat :=
  Nat.pow 10 n

/-- The least exponent of a finite number. -/
def minExponent : Int :=
  -1074

/-- The mantissa from which on the leading bit is implied. -/
def leadingBit : Nat :=
  twoTo 52

/-- The meaning of the bits of a floating-point number: a sign bit, eleven bits for the exponent
and fifty-two bits for the mantissa. -/
def decode (x : Float) : Binary :=
  let bits := x.toBits.toNat
  let negative := bits / twoTo 63 % 2 == 1
  let exponent : Nat := bits / twoTo 52 % twoTo 11
  let fraction := bits % twoTo 52
  if exponent = twoTo 11 - 1 then
    if fraction = 0 then .infinite negative else .notANumber
  else if exponent = 0 then .finite negative fraction minExponent
  else .finite negative (leadingBit + fraction) (minExponent + ((exponent : Int) - 1))

/-- The sign in front of a number. -/
def sign (negative : Bool) : String :=
  if negative then "-" else ""

end Categorial.Decimal

import Categorial.Decimal.Binary

/-!
# Shortest decimals

The shortest decimal that is read back as a given binary number, and of several such decimals the
one nearest to the number; if two are equally near, the one whose last digit is even. All numbers
nearer to a binary number than to its neighbours are read back as this number, and the two borders
also if its mantissa is even. Decimals with `n` digits of the same magnitude form a grid; if a point
of the grid lies between the borders, so does one of the two points next to the number.

* `shortest`: the digits and the exponent of the decimal.
* `render`: its usual text.
-/

namespace Categorial.Decimal

/-- A positive number with its borders, in quarters of a power of two: the number is
`4 · mantissa`, and everything is counted in units of `scale / divisor`. -/
structure Interval where
  low : Nat
  middle : Nat
  high : Nat
  closed : Bool
  scale : Nat
  divisor : Nat

/-- The borders of the number `mantissa · 2 ^ exponent`. Below a power of two the numbers are twice
as dense, except for the least exponent. -/
def interval (mantissa : Nat) (exponent : Int) : Interval :=
  let low := if mantissa = leadingBit ∧ exponent ≠ minExponent then 1 else 2
  { low := 4 * mantissa - low
    middle := 4 * mantissa
    high := 4 * mantissa + 2
    closed := mantissa % 2 == 0
    scale := twoTo (exponent - 2).toNat
    divisor := twoTo (2 - exponent).toNat }

namespace Interval

/-- The sides of the comparison of `digits · 10 ^ place` with a multiple of the unit, both made
whole. -/
def sides (i : Interval) (digits : Nat) (place : Int) (units : Nat) : Nat × Nat :=
  (digits * tenTo place.toNat * i.divisor, units * i.scale * tenTo (-place).toNat)

/-- Whether `digits · 10 ^ place` is read back as the number. -/
def contains (i : Interval) (digits : Nat) (place : Int) : Bool :=
  let (x, low) := i.sides digits place i.low
  let (_, high) := i.sides digits place i.high
  if i.closed then low ≤ x && x ≤ high else low < x && x < high

/-- The last point of a grid that does not exceed the number. -/
def below (i : Interval) (place : Int) : Nat :=
  i.middle * i.scale * tenTo (-place).toNat / (tenTo place.toNat * i.divisor)

/-- Of the points `digits` and `digits + 1` of a grid the one that is nearer to the number, and of
two that are equally near the even one. -/
def nearer (i : Interval) (digits : Nat) (place : Int) : Nat :=
  let (x, middle) := i.sides (2 * digits + 1) place (2 * i.middle)
  if middle < x ∨ (middle = x ∧ digits % 2 = 0) then digits else digits + 1

/-- The point of a grid that is read back as the number, of two such points the nearer one. -/
def pointOn (i : Interval) (place : Int) : Option Nat :=
  let d := i.below place
  match i.contains d place, i.contains (d + 1) place with
  | true, true => some (i.nearer d place)
  | true, false => some d
  | false, true => some (d + 1)
  | false, false => none

/-- Numbers of places behind the decimal point, of which the last is enough for the least positive
number to leave a trace. -/
def depths : List Int :=
  [0, 20, 400]

/-- The number of digits in front of the decimal point; negative if zeros follow the point. It is
counted with as few places as leave a trace of the number. -/
def magnitude (i : Interval) : Int :=
  let depth := (depths.find? fun k => i.below (-k) ≠ 0).getD 0
  (Nat.toDigits 10 (i.below (-depth))).length - depth

end Interval

/-- A whole number times a power of ten. -/
structure Scientific where
  digits : Nat
  place : Int
  deriving DecidableEq

/-- The first grid with a point that is read back as the number, from `n` digits on and for at most
`fuel` more. -/
def shortestFrom (i : Interval) (magnitude : Int) : Nat → Nat → Scientific
  | 0, n => ⟨i.below (magnitude - n), magnitude - n⟩
  | fuel + 1, n =>
    match i.pointOn (magnitude - n) with
    | some d => ⟨d, magnitude - n⟩
    | none => shortestFrom i magnitude fuel (n + 1)

/-- The shortest decimal that is read back as `mantissa · 2 ^ exponent`, where the mantissa is not
zero. Seventeen digits are always enough. -/
def shortest (mantissa : Nat) (exponent : Int) : Scientific :=
  let i := interval mantissa exponent
  shortestFrom i i.magnitude 17 1

/-! ## Text -/

/-- The digits of a number, without the zeros at the end. -/
def significantDigits (n : Nat) : List Char :=
  let ds := ((Nat.toDigits 10 n).reverse.dropWhile (· == '0')).reverse
  if ds.isEmpty then ['0'] else ds

/-- The exponent behind the mantissa: a sign and at least two digits. -/
def renderExponent (e : Int) : List Char :=
  let ds := Nat.toDigits 10 e.natAbs
  'e' :: (if e < 0 then '-' else '+') :: (if ds.length < 2 then '0' :: ds else ds)

/-- The text of a positive decimal whose digits are `ds` and whose decimal point stands behind the
digit number `point`. Between `10 ^ -4` and `10 ^ 16` it is written in full, with at least one digit
on both sides of the point; otherwise with an exponent. -/
def layout (ds : List Char) (point : Int) : List Char :=
  if -4 < point ∧ point ≤ 16 then
    if point ≤ 0 then '0' :: '.' :: List.replicate (-point).toNat '0' ++ ds
    else
      let k := point.toNat
      let whole := ds.take k ++ List.replicate (k - ds.length) '0'
      whole ++ '.' :: (if ds.length ≤ k then ['0'] else ds.drop k)
  else match ds with
    | [] => []
    | [d] => d :: renderExponent (point - 1)
    | d :: more => d :: '.' :: more ++ renderExponent (point - 1)

/-- The text of a finite number without its sign. -/
def renderMagnitude (mantissa : Nat) (exponent : Int) : String :=
  if mantissa = 0 then "0.0"
  else
    let d := shortest mantissa exponent
    let point := (Nat.toDigits 10 d.digits).length + d.place
    String.ofList (layout (significantDigits d.digits) point)

/-- The shortest text that is read back as a number. -/
def render (x : Float) : String :=
  match decode x with
  | .notANumber => "nan"
  | .infinite negative => sign negative ++ "inf"
  | .finite negative m e => sign negative ++ renderMagnitude m e

end Categorial.Decimal

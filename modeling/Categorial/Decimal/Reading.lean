import Categorial.Text.Blank
import Categorial.Text.Digit

/-!
# Reading numbers

Whole and decimal numbers as a user writes them: blanks around them do not count, the digits may be
those of any script, and a single underscore may stand between two digits.

* `readInt?`: a whole number with an optional sign and at most `digitLimit` digits.
* `readFloat?`: a decimal number with optional sign, point and exponent, an infinity or `nan`.
-/

namespace Categorial.Decimal

/-- The ASCII blanks that may surround a number. -/
def isAsciiBlank (c : Char) : Bool :=
  c == ' ' || (9 ≤ c.toNat && c.toNat ≤ 13)

/-- The ASCII character that stands for a character in a number: a space for a blank, a digit for
a digit of another script, and a question mark, which no number has, for anything else beyond
ASCII. -/
def plainChar (c : Char) : Char :=
  if c.toNat < 0x7F then c
  else if Text.isBlank c then ' '
  else match Text.digitValue? c with
    | some d => Text.hexDigit d
    | none => '?'

/-- The characters of a number without the blanks around them. -/
def plain (cs : List Char) : List Char :=
  let cs := (cs.map plainChar).dropWhile isAsciiBlank
  (cs.reverse.dropWhile isAsciiBlank).reverse

/-- The characters without the underscores, each of which has to stand between two digits;
`afterDigit` tells whether a digit is in front. -/
def dropUnderscores (afterDigit : Bool) : List Char → Option (List Char)
  | [] => some []
  | '_' :: c :: cs =>
    if afterDigit && Text.isAsciiDigit c then (dropUnderscores true cs).map (c :: ·) else none
  | c :: cs =>
    if c = '_' then none else (dropUnderscores (Text.isAsciiDigit c) cs).map (c :: ·)

/-- A sign in front of a number: whether it is a minus, and what follows. -/
def readSign : List Char → Bool × List Char
  | '-' :: cs => (true, cs)
  | '+' :: cs => (false, cs)
  | cs => (false, cs)

/-- The whole number that decimal digits stand for. -/
def ofDigits (ds : List Char) : Nat :=
  ds.foldl (fun n d => 10 * n + (d.toNat - '0'.toNat)) 0

/-- The greatest number of digits of a whole number that is read. Zeros in front count. -/
def digitLimit : Nat :=
  4300

/-- A whole number. -/
def readInt? (text : String) : Option Int := do
  let cs ← dropUnderscores false (plain text.toList)
  let (negative, ds) := readSign cs
  if ds.isEmpty || !ds.all Text.isAsciiDigit || digitLimit < ds.length then none
  else some (if negative then -(ofDigits ds : Int) else ofDigits ds)

/-- The floating-point number next to `digits · 10 ^ exponent`. Numbers far beyond the largest are
infinite and numbers far below the smallest are zero. -/
def nearest (digits : Nat) (exponent : Int) : Float :=
  let magnitude := (Nat.toDigits 10 digits).length + exponent
  if digits = 0 || magnitude < -400 then 0
  else if 400 < magnitude then Float.ofScientific 1 false 400
  else if exponent < 0 then Float.ofScientific digits true exponent.natAbs
  else Float.ofScientific digits false exponent.natAbs

/-- The exponent of a decimal number, which may be missing. -/
def readExponent? : List Char → Option Int
  | [] => some 0
  | e :: cs =>
    let (negative, ds) := readSign cs
    if (e = 'e' || e = 'E') && !ds.isEmpty && ds.all Text.isAsciiDigit then
      some (if negative then -(ofDigits ds : Int) else ofDigits ds)
    else none

/-- A decimal number without sign, as a whole number and the power of ten it is multiplied with:
digits, at least one, with an optional point among them, and an optional exponent. -/
def readDecimal? (cs : List Char) : Option (Nat × Int) := do
  let whole := cs.takeWhile Text.isAsciiDigit
  let (fraction, rest) := match cs.dropWhile Text.isAsciiDigit with
    | '.' :: rest => (rest.takeWhile Text.isAsciiDigit, rest.dropWhile Text.isAsciiDigit)
    | rest => ([], rest)
  if whole.isEmpty && fraction.isEmpty then none
  else return (ofDigits (whole ++ fraction), (← readExponent? rest) - fraction.length)

/-- A decimal number without sign. -/
def readMagnitude? (cs : List Char) : Option Float :=
  (readDecimal? cs).map fun (digits, exponent) => nearest digits exponent

/-- The names of the numbers that are not finite, in lower case. -/
def named? (name : String) : Option Float :=
  if name = "inf" || name = "infinity" then some (Float.ofBits 0x7FF0000000000000)
  else if name = "nan" then some (Float.ofBits 0x7FF8000000000000)
  else none

/-- A decimal number. -/
def readFloat? (text : String) : Option Float := do
  let cs ← dropUnderscores false (plain text.toList)
  let (negative, cs) := readSign cs
  let x ← (named? (String.ofList (cs.map Char.toLower))).or (readMagnitude? cs)
  return if negative then -x else x

end Categorial.Decimal

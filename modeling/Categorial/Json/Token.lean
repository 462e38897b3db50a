import Categorial.Decimal.Reading

/-!
# JSON tokens

Cutting a JSON text into brackets, separators, strings and scalars. A scalar is a literal or a
number; besides the usual ones `NaN`, `Infinity` and `-Infinity` are numbers. A string holds no
control characters. Blanks are the space, the tab, the line feed and the carriage return only.

The text is read one character at a time, so the state after a prefix of the text depends on
nothing that follows it. What is no token is one of a kind of its own, so that the mistakes of a
text come in the order in which they are read.

* `Token.ofText`: the tokens of a text.
-/

namespace Categorial.Json

/-- A token of a JSON text. -/
inductive Token
  | openArray
  | closeArray
  | openObject
  | closeObject
  | comma
  | colon
  | null
  | bool (value : Bool)
  | number (text : String)
  | string (text : String)
  /-- A scalar that starts with a whole number of more digits than are read. -/
  | tooManyDigits (digits : Nat)
  /-- What is no token. -/
  | unreadable
  deriving DecidableEq

namespace Token

/-- The characters that may stand between two tokens. -/
def isGap (c : Char) : Bool :=
  c == ' ' || c == '\t' || c == '\n' || c == '\r'

/-- The token of a bracket or separator. -/
def punctuation? : Char → Option Token
  | '[' => some openArray
  | ']' => some closeArray
  | '\x7b' => some openObject
  | '\x7d' => some closeObject
  | ',' => some comma
  | ':' => some colon
  | _ => none

/-! ## Scalars -/

/-- The rest of a text behind one or more digits. -/
def afterDigits? (cs : List Char) : Option (List Char) :=
  match cs with
  | c :: cs => if Text.isAsciiDigit c then some (cs.dropWhile Text.isAsciiDigit) else none
  | [] => none

/-- The rest of a text behind a whole number without superfluous zeros. -/
def afterWhole? : List Char → Option (List Char)
  | '0' :: cs => some cs
  | cs => afterDigits? cs

/-- The rest of a text behind a decimal point and its digits, if there is a point. -/
def afterFraction? : List Char → Option (List Char)
  | '.' :: cs => afterDigits? cs
  | cs => some cs

/-- The rest of a text behind the sign of an exponent. -/
def afterSign : List Char → List Char
  | '+' :: cs | '-' :: cs => cs
  | cs => cs

/-- The rest of a text behind an exponent, if there is one. -/
def afterExponent? : List Char → Option (List Char)
  | 'e' :: cs | 'E' :: cs => afterDigits? (afterSign cs)
  | cs => some cs

/-- A number without the sign in front. -/
def unsigned : List Char → List Char
  | '-' :: cs => cs
  | cs => cs

/-- Whether the characters are a number. -/
def isNumber (cs : List Char) : Bool :=
  (do afterExponent? (← afterFraction? (← afterWhole? (unsigned cs)))) = some []

/-- Whether a text starts with the fraction or the exponent of a number. -/
def startsPart (cs : List Char) : Bool :=
  match cs with
  | '.' :: _ => (afterFraction? cs).isSome
  | 'e' :: _ | 'E' :: _ => (afterExponent? cs).isSome
  | _ => false

/-- The number of digits of the whole number at the start of a text; none if the text does not start
with a number, or its number has a fraction or an exponent. -/
def wholeDigits (cs : List Char) : Nat :=
  match afterWhole? (unsigned cs) with
  | some rest => if startsPart rest then 0 else (unsigned cs).length - rest.length
  | none => 0

/-- The token of a scalar. -/
def scalar (cs : List Char) : Token :=
  let text := String.ofList cs
  if text = "null" then null
  else if text = "true" then bool true
  else if text = "false" then bool false
  else if Decimal.digitLimit < wholeDigits cs then tooManyDigits (wholeDigits cs)
  else if text = "NaN" || text = "Infinity" || text = "-Infinity" || isNumber cs then number text
  else unreadable

/-! ## Strings -/

/-- The code unit of an escape of one character. -/
def escaped? : Char → Option Nat
  | '"' => some 0x22
  | '\\' => some 0x5C
  | '/' => some 0x2F
  | 'b' => some 8
  | 'f' => some 12
  | 'n' => some 10
  | 'r' => some 13
  | 't' => some 9
  | _ => none

/-- Whether a code unit is the first of a pair. -/
def isHighUnit (n : Nat) : Bool :=
  0xD800 ≤ n && n < 0xDC00

/-- Whether a code unit is the second of a pair. -/
def isLowUnit (n : Nat) : Bool :=
  0xDC00 ≤ n && n < 0xE000

/-- The code point that a pair of code units stands for. -/
def pairPoint (high low : Nat) : Nat :=
  0x10000 + (high - 0xD800) * 0x400 + (low - 0xDC00)

/-- The character of a code unit; one half of a pair alone gives the replacement character. -/
def unitChar (n : Nat) : Char :=
  if isHighUnit n || isLowUnit n then Char.ofNat 0xFFFD else Char.ofNat n

/-- The characters that code points and code units stand for. -/
def joinUnits : List Nat → List Char
  | high :: low :: rest =>
    if isHighUnit high && isLowUnit low then Char.ofNat (pairPoint high low) :: joinUnits rest
    else unitChar high :: joinUnits (low :: rest)
  | [n] => [unitChar n]
  | [] => []

/-! ## Reading -/

/-- What the reader is in the middle of; characters and code units are held last first. -/
inductive Mode
  | gap
  | scalar (cs : List Char)
  | string (units : List Nat)
  | escape (units : List Nat)
  /-- An escape by code unit that lacks so many digits, and its value so far. -/
  | code (units : List Nat) (missing value : Nat)
  /-- Behind what is no token. -/
  | stopped

/-- The tokens read so far, last first, and what the reader is in the middle of. -/
structure State where
  tokens : List Token
  mode : Mode

/-- The state behind what is no token. -/
def stop (tokens : List Token) : State :=
  ⟨unreadable :: tokens, .stopped⟩

/-- The state after one more character behind a token. -/
def stepGap (tokens : List Token) (c : Char) : State :=
  if isGap c then ⟨tokens, .gap⟩
  else if c = '"' then ⟨tokens, .string []⟩
  else match punctuation? c with
    | some t => ⟨t :: tokens, .gap⟩
    | none => ⟨tokens, .scalar [c]⟩

/-- Whether a character continues a scalar. -/
def continuesScalar (c : Char) : Bool :=
  !isGap c && c != '"' && (punctuation? c).isNone

/-- The state after one more character. -/
def step (s : State) (c : Char) : State :=
  match s.mode with
  | .gap => stepGap s.tokens c
  | .scalar cs =>
    if continuesScalar c then ⟨s.tokens, .scalar (c :: cs)⟩
    else stepGap (scalar cs.reverse :: s.tokens) c
  | .string units =>
    if c = '"' then ⟨string (String.ofList (joinUnits units.reverse)) :: s.tokens, .gap⟩
    else if c = '\\' then ⟨s.tokens, .escape units⟩
    else if c.toNat < 0x20 then stop s.tokens
    else ⟨s.tokens, .string (c.toNat :: units)⟩
  | .escape units =>
    if c = 'u' then ⟨s.tokens, .code units 4 0⟩
    else match escaped? c with
      | some n => ⟨s.tokens, .string (n :: units)⟩
      | none => stop s.tokens
  | .code units missing value =>
    match Text.hexValue? c with
    | some d =>
      let value := 16 * value + d
      if missing ≤ 1 then ⟨s.tokens, .string (value :: units)⟩
      else ⟨s.tokens, .code units (missing - 1) value⟩
    | none => stop s.tokens
  | .stopped => s

/-- The tokens at the end of a text. -/
def finish (s : State) : List Token :=
  match s.mode with
  | .gap | .stopped => s.tokens.reverse
  | .scalar cs => (scalar cs.reverse :: s.tokens).reverse
  | .string _ | .escape _ | .code .. => (unreadable :: s.tokens).reverse

/-- The tokens of a text, up to what is no token. -/
def ofText (cs : List Char) : List Token :=
  finish (cs.foldl step ⟨[], .gap⟩)

end Token

end Categorial.Json

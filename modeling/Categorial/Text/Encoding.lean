/-!
# Encoded texts

A text is stored as UTF-8 bytes, which are decoded a block at a time; a character may go on in the
next block. That bytes encode no text is noticed at the first block that cannot be decoded, or at
their end if the last character is cut off. The part of the text in front is known by then.

* `decode?`: the text that bytes encode.
* `decodedFront`: what is known of a text when it is noticed that its bytes encode none.
* `decode?_toUTF8`: decoding undoes encoding.
-/

namespace Categorial.Text

/-- The number of bytes that are decoded at a time. -/
def blockSize : Nat :=
  8192

/-- The text that bytes encode. -/
def decode? (bytes : ByteArray) : Option String :=
  String.fromUTF8? bytes

theorem decode?_toUTF8 (text : String) : decode? text.toUTF8 = some text :=
  dif_pos text.isValidUTF8

/-- Whether a byte continues a character. -/
def isContinuation (b : UInt8) : Bool :=
  0x80 ≤ b && b < 0xC0

/-- Whether two bytes may start a character of three bytes. Those of a surrogate have the form of
one; they are refused with the third byte. -/
def startsThree (a b : UInt8) : Bool :=
  0xE0 ≤ a && a < 0xF0 && isContinuation b && (a != 0xE0 || 0xA0 ≤ b)

/-- Whether two bytes may start a character of four bytes. -/
def startsFour (a b : UInt8) : Bool :=
  0xF0 ≤ a && a < 0xF5 && isContinuation b && (a != 0xF0 || 0x90 ≤ b) && (a != 0xF4 || b < 0x90)

/-- Whether bytes may be the start of a character that goes on behind them. -/
def isCutOff : List UInt8 → Bool
  | [a] => 0xC2 ≤ a && a < 0xF5
  | [a, b] => startsThree a b || startsFour a b
  | [a, b, c] => startsFour a b && isContinuation c
  | _ => false

/-- The text of bytes without the character that is cut off at their end, if one is. -/
def decodePart? (bytes : ByteArray) : Option String :=
  (decode? bytes).or <| [1, 2, 3].findSome? fun k =>
    let rest := bytes.size - k
    if isCutOff (bytes.extract rest bytes.size).toList then decode? (bytes.extract 0 rest)
    else none

/-- The text of the blocks in front of the first one that cannot be decoded, without the character
that is cut off at their end. -/
def decodedFront (bytes : ByteArray) : String :=
  let ends := (List.range (bytes.size / blockSize + 2)).map (· * blockSize)
  (ends.reverse.findSome? fun n => decodePart? (bytes.extract 0 n)).getD ""

end Categorial.Text

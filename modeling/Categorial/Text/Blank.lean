import Categorial.Text.Pieces

/-!
# Blanks

The characters that separate words, and the operations on texts that depend on them: trimming
and cutting a text into fields. A blank is one of the ASCII blanks, the four ASCII separators,
the next-line character, the no-break space or a space or line separator outside ASCII; the
zero-width space is none.

* `isBlank`: the blanks.
* `strip`, `fields`, `firstField`: what is between them.
-/

namespace Categorial.Text

/-- The characters that separate words. -/
def isBlank (c : Char) : Bool :=
  let n := c.toNat
  (9 ≤ n && n ≤ 13) || (28 ≤ n && n ≤ 32) || n == 0x85 || n == 0xA0 || n == 0x1680 ||
    (0x2000 ≤ n && n ≤ 0x200A) || n == 0x2028 || n == 0x2029 || n == 0x202F || n == 0x205F ||
    n == 0x3000

/-- The text without the blanks at its end. -/
def stripRight (cs : List Char) : List Char :=
  (cs.reverse.dropWhile isBlank).reverse

/-- The text without the blanks at both ends. -/
def strip (cs : List Char) : List Char :=
  stripRight (cs.dropWhile isBlank)

/-- The maximal runs of characters that are not blank. -/
def fields (cs : List Char) : List (List Char) :=
  (pieces isBlank cs).filter (!·.isEmpty)

/-- The first field, and what follows it without the blanks in between. -/
def firstField (cs : List Char) : List Char × List Char :=
  let cs := cs.dropWhile isBlank
  (cs.takeWhile (!isBlank ·), (cs.dropWhile (!isBlank ·)).dropWhile isBlank)

end Categorial.Text

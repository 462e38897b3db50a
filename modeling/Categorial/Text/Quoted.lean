import Categorial.Text.Printable
import Categorial.Text.Digit

/-!
# Quoted texts

The form in which messages show a text. It stands between apostrophes, or between quotation marks
when the text holds an apostrophe and no quotation mark. The backslash and the mark itself are
escaped with a backslash, line feed, carriage return and tab by their letters, and every other
character that is not printable by its code point in hexadecimal.

* `quote`: the text as messages show it.
-/

namespace Categorial.Text

/-- The mark that stands at both ends of the quoted text. -/
def quoteMark (cs : List Char) : Char :=
  if cs.contains '\'' && !cs.contains '"' then '"' else '\''

/-- A code point that stands for no printable character, in as few digits as its range needs. -/
def escapeCode (c : Char) : List Char :=
  let n := c.toNat
  if n < 0x100 then '\\' :: 'x' :: hexDigits 2 n
  else if n < 0x10000 then '\\' :: 'u' :: hexDigits 4 n
  else '\\' :: 'U' :: hexDigits 8 n

/-- A character as it is written between two marks. -/
def quoteChar (mark c : Char) : List Char :=
  if c = mark || c = '\\' then ['\\', c]
  else if c = '\n' then ['\\', 'n']
  else if c = '\r' then ['\\', 'r']
  else if c = '\t' then ['\\', 't']
  else if isPrintable c then [c]
  else escapeCode c

/-- The text as messages show it. -/
def quote (text : String) : String :=
  let cs := text.toList
  let mark := quoteMark cs
  String.ofList (mark :: cs.flatMap (quoteChar mark) ++ [mark])

end Categorial.Text

import Categorial.Json.Value
import Categorial.Text.Align
import Categorial.Text.Digit

/-!
# Writing JSON

A value is spread over lines, four spaces deeper for each array or object around it; an empty array
or object stays on its line. Controls and characters outside ASCII are escaped by code unit.

* `Json.render`: the text of a value.
-/

namespace Categorial.Json

/-- A code unit as an escape. -/
def escapeUnit (n : Nat) : List Char :=
  '\\' :: 'u' :: Text.hexDigits 4 n

/-- A character as it is written in a string. -/
def writeChar (c : Char) : List Char :=
  let n := c.toNat
  if c = '"' || c = '\\' then ['\\', c]
  else if c = '\n' then ['\\', 'n']
  else if c = '\r' then ['\\', 'r']
  else if c = '\t' then ['\\', 't']
  else if n = 12 then ['\\', 'f']
  else if n = 8 then ['\\', 'b']
  else if 0x20 ≤ n && n < 0x7F then [c]
  else if n < 0x10000 then escapeUnit n
  else
    let m := n - 0x10000
    escapeUnit (0xD800 + m / 0x400) ++ escapeUnit (0xDC00 + m % 0x400)

/-- A string with its marks. -/
def writeString (text : String) : String :=
  "\"" ++ String.ofList (text.toList.flatMap writeChar) ++ "\""

/-- The start of a line at the given depth. -/
def newLine (depth : Nat) : String :=
  "\n" ++ String.ofList (Text.spaces (4 * depth))

mutual

/-- The text of a value inside `depth` arrays and objects. -/
def renderAt (depth : Nat) : Json → String
  | null => "null"
  | bool b => if b then "true" else "false"
  | number text => text
  | string text => writeString text
  | array [] => "[]"
  | array (v :: vs) =>
    "[" ++ newLine (depth + 1) ++ renderAt (depth + 1) v ++ renderItems (depth + 1) vs ++
      newLine depth ++ "]"
  | object [] => "\x7b\x7d"
  | object ((key, v) :: ms) =>
    "\x7b" ++ newLine (depth + 1) ++ writeString key ++ ": " ++ renderAt (depth + 1) v ++
      renderMembers (depth + 1) ms ++ newLine depth ++ "\x7d"

/-- The text of further items, each behind a comma and on a line of its own. -/
def renderItems (depth : Nat) : List Json → String
  | [] => ""
  | v :: vs => "," ++ newLine depth ++ renderAt depth v ++ renderItems depth vs

/-- The text of further members, each behind a comma and on a line of its own. -/
def renderMembers (depth : Nat) : List (String × Json) → String
  | [] => ""
  | (key, v) :: ms =>
    "," ++ newLine depth ++ writeString key ++ ": " ++ renderAt depth v ++ renderMembers depth ms

end

/-- The text of a value. -/
def render (v : Json) : String :=
  renderAt 0 v

end Categorial.Json

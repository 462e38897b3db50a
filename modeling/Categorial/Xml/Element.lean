import Categorial.Text.Align

/-!
# XML elements

Elements with attributes and further elements inside, and their text: an element a line, two spaces
deeper for each element around it, without a declaration. Signs of the markup and line ends are
escaped in attributes, everything else is written as it is.

* `Element.render`: the text of an element.
-/

namespace Categorial.Xml

/-- An element. -/
inductive Element
  | mk (name : String) (attributes : List (String × String)) (children : List Element)

/-- Whether a character may occur in an XML text. -/
def isAllowed (c : Char) : Bool :=
  let n := c.toNat
  (0x20 ≤ n || n == 9 || n == 10 || n == 13) && n != 0xFFFE && n != 0xFFFF

/-- Whether all characters may occur in an XML text. -/
def isValid (text : String) : Bool :=
  text.toList.all isAllowed

/-- A character as it is written in the value of an attribute. -/
def escapeChar (c : Char) : List Char :=
  match c with
  | '&' => "&amp;".toList
  | '<' => "&lt;".toList
  | '>' => "&gt;".toList
  | '"' => "&quot;".toList
  | '\t' => "&#9;".toList
  | '\n' => "&#10;".toList
  | '\r' => "&#13;".toList
  | _ => [c]

/-- An attribute with the space in front of it. -/
def renderAttribute (a : String × String) : String :=
  " " ++ a.1 ++ "=\"" ++ String.ofList (a.2.toList.flatMap escapeChar) ++ "\""

/-- The depth beyond which lines are not indented further. -/
def deepestIndent : Nat :=
  30

/-- The start of a line at the given depth: two spaces for each element around it, up to the
deepest indentation. -/
def indent (depth : Nat) : String :=
  String.ofList (Text.spaces (2 * min depth deepestIndent))

/-- The name and the attributes of an element. -/
def renderHead (name : String) (attributes : List (String × String)) : String :=
  name ++ String.join (attributes.map renderAttribute)

mutual

/-- The lines of an element inside `depth` others. -/
def Element.renderAt (depth : Nat) : Element → String
  | .mk name attributes [] => indent depth ++ "<" ++ renderHead name attributes ++ "/>\n"
  | .mk name attributes (e :: es) =>
    indent depth ++ "<" ++ renderHead name attributes ++ ">\n" ++ e.renderAt (depth + 1) ++
      renderAll (depth + 1) es ++ indent depth ++ "</" ++ name ++ ">\n"

/-- The lines of elements that follow one another. -/
def renderAll (depth : Nat) : List Element → String
  | [] => ""
  | e :: es => e.renderAt depth ++ renderAll depth es

end

/-- The text of an element. -/
def Element.render (e : Element) : String :=
  e.renderAt 0

end Categorial.Xml

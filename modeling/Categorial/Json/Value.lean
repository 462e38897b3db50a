/-!
# JSON values

A number is kept as it is written, so that no digit is lost between reading and writing; the
members of an object are in order.
-/

namespace Categorial

/-- A JSON value. -/
inductive Json
  | null
  | bool (value : Bool)
  | number (text : String)
  | string (text : String)
  | array (items : List Json)
  | object (members : List (String × Json))

end Categorial

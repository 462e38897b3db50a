import Categorial.Json.Token
import Categorial.Json.Value
import Categorial.Ordered.Map

/-!
# Reading JSON

A JSON text is one value. The reader takes one token at a time and keeps the arrays and objects
that are still open. If a key occurs more than once in an object, its last value stands at the place
of the first. A whole number with too many digits is a fault of its own, and it does not matter what
follows it.

* `Json.parse`: the value that a text denotes, or what is wrong with it.
-/

namespace Categorial.Json

/-- Why a text denotes no value. -/
inductive Fault
  /-- It is no JSON text. -/
  | malformed
  /-- One of its whole numbers has more digits than are read. -/
  | tooManyDigits (digits : Nat)
  deriving DecidableEq

/-- An array or object that is still open, what it holds last first. -/
inductive Frame
  | items (read : List Json)
  /-- An object whose next value belongs to the given key. -/
  | member (read : List (String × Json)) (key : String)

/-- What may come next. -/
inductive Phase
  /-- A value. -/
  | value
  /-- A value, or the end of the array that was just opened. -/
  | firstItem
  /-- A key, or the end of the object that was just opened. -/
  | firstKey
  /-- A key of the object whose members are given. -/
  | key (read : List (String × Json))
  /-- The colon behind a key. -/
  | colon (read : List (String × Json)) (key : String)
  /-- A separator or the end of the innermost array or object. -/
  | separator
  /-- Nothing, as the value is complete. -/
  | complete (value : Json)

/-- The arrays and objects that are open, the innermost first, and what may come next. -/
structure State where
  opened : List Frame
  phase : Phase

/-- The object with the given members, last first. -/
def ofMembers (read : List (String × Json)) : Json :=
  .object (OrderedMap.ofList read.reverse).toList

/-- The state behind a value. -/
def put (opened : List Frame) (v : Json) : State :=
  match opened with
  | [] => ⟨[], .complete v⟩
  | .items read :: outer => ⟨.items (v :: read) :: outer, .separator⟩
  | .member read key :: outer => ⟨.member ((key, v) :: read) key :: outer, .separator⟩

/-- The state behind a token that starts a value. -/
def stepValue (opened : List Frame) : Token → Except Fault State
  | .openArray => .ok ⟨.items [] :: opened, .firstItem⟩
  | .openObject => .ok ⟨opened, .firstKey⟩
  | .null => .ok (put opened .null)
  | .bool b => .ok (put opened (.bool b))
  | .number text => .ok (put opened (.number text))
  | .string text => .ok (put opened (.string text))
  | .tooManyDigits digits => .error (.tooManyDigits digits)
  | _ => .error .malformed

/-- The state behind a separator or the end of the innermost array or object. -/
def stepSeparator (opened : List Frame) (t : Token) : Except Fault State :=
  match opened, t with
  | .items read :: outer, .comma => .ok ⟨.items read :: outer, .value⟩
  | .items read :: outer, .closeArray => .ok (put outer (.array read.reverse))
  | .member read _ :: outer, .comma => .ok ⟨outer, .key read⟩
  | .member read _ :: outer, .closeObject => .ok (put outer (ofMembers read))
  | _, _ => .error .malformed

/-- The state after one more token. -/
def step (s : State) (t : Token) : Except Fault State :=
  match s.phase with
  | .value => stepValue s.opened t
  | .firstItem =>
    match s.opened, t with
    | .items [] :: outer, .closeArray => .ok (put outer (.array []))
    | _, _ => stepValue s.opened t
  | .firstKey =>
    match t with
    | .closeObject => .ok (put s.opened (.object []))
    | .string key => .ok ⟨s.opened, .colon [] key⟩
    | _ => .error .malformed
  | .key read =>
    match t with
    | .string key => .ok ⟨s.opened, .colon read key⟩
    | _ => .error .malformed
  | .colon read key =>
    match t with
    | .colon => .ok ⟨.member read key :: s.opened, .value⟩
    | _ => .error .malformed
  | .separator => stepSeparator s.opened t
  | .complete _ => .error .malformed

/-- The value that a sequence of tokens denotes. -/
def ofTokens (ts : List Token) : Except Fault Json := do
  match (← ts.foldlM step ⟨[], .value⟩).phase with
  | .complete v => .ok v
  | _ => .error .malformed

/-- The value that a text denotes. -/
def parse (cs : List Char) : Except Fault Json :=
  ofTokens (Token.ofText cs)

end Categorial.Json

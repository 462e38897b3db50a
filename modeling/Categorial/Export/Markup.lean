import Categorial.Decimal.Fixed
import Categorial.Derivation.Basic
import Categorial.Xml.Element

/-!
# Derivations in XML

Every derivation is a `ccg` element with the number of its sentence, its rank and its score. Inside,
a leaf is an `lf` element with its place and its word, and any other part a `rule` element with the
name of the step; a raised part also has its source and the neighbour it was raised against.

* `ccgElement`: the element of a derivation, without number, rank and score.
* `markup`: the document of the derivations of several sentences.
-/

namespace Categorial.Export

open Categorial.Derivation Xml

/-- A word that cannot be written in XML. -/
structure MarkupError where
  word : String

/-- What is wrong, in words. -/
def MarkupError.message (_ : MarkupError) : String :=
  "All strings must be XML compatible: Unicode or ASCII, no NULL bytes or control characters"

/-- The attributes of a leaf at the given place. -/
def leafAttributes (place : Nat) (d : Derivation) : List (String × String) :=
  [("start", toString place), ("span", "1"), ("cat", renderCategory? d.category),
    ("word", shownWord d.token)]

/-- The attributes of a step. -/
def stepAttributes (d : Derivation) : List (String × String) :=
  [("type", d.code), ("cat", renderCategory? d.category)]

/-- The attributes that a raised part has in addition. -/
def raisedAttributes (source neighbor : Category) : List (String × String) :=
  [("source", source.render), ("neighbor", neighbor.render)]

/-- The element of a part whose first leaf has the given place. -/
def partElement : Nat → Derivation → Element
  | place, leaf c w => .mk "lf" (leafAttributes place (leaf c w)) []
  | place, raisedLeaf x y =>
    .mk "lf" (leafAttributes place (raisedLeaf x y) ++ raisedAttributes x y) []
  | place, raised x y child =>
    .mk "rule" (stepAttributes (raised x y child) ++ raisedAttributes x y)
      [partElement place child]
  | place, node r left right =>
    .mk "rule" (stepAttributes (node r left right))
      [partElement place left, partElement (place + left.leaves.length) right]

/-- The element of a derivation, with the given attributes. -/
def ccgElement (attributes : List (String × String)) (d : Derivation) : Element :=
  .mk "ccg" attributes [partElement 0 d]

/-- The attributes of a derivation in a document. -/
def rankAttributes (sentence rank : Nat) (score : Float) : List (String × String) :=
  [("sentence", toString sentence), ("id", toString rank),
    ("score", Decimal.renderFixed 8 score)]

/-- The first word of a derivation that cannot be written. -/
def firstInvalidWord? (d : Derivation) : Option String :=
  (d.words.map shownWord).find? fun w => !isValid w

/-- The elements of the derivations of a sentence, the best first. -/
def sentenceElements (sentence : Nat) (ds : List (Scored Float)) : List Element :=
  (ds.zipIdx 1).map fun (d, rank) =>
    ccgElement (rankAttributes sentence rank d.score) d.derivation

/-- The document of the derivations of several sentences. -/
def markup (sentences : List (List (Scored Float))) : Except MarkupError Element :=
  match sentences.flatten.findSome? fun d => firstInvalidWord? d.derivation with
  | some w => .error ⟨w⟩
  | none =>
    .ok (.mk "candc" [] ((sentences.zipIdx 1).flatMap fun (ds, k) => sentenceElements k ds))

end Categorial.Export

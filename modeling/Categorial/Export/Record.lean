import Categorial.Derivation.Basic
import Categorial.Json.Value

/-!
# Derivations as records

A derivation as a JSON object: its category, for a raised one its source, and either its word or
the name of the step that ends it and its parts. Categories are written out, or taken apart into
their components.

* `record`: the object of a derivation.
-/

namespace Categorial.Export

open Categorial.Derivation

/-- The components of a category. -/
def components : Category → Json
  | .functor r d x =>
    .object [("direction", .string d.direction.symbol), ("feature", .string d.modality.name),
      ("result", components r), ("argument", components x)]
  | .var => .object [("variable", .bool true)]
  | .atom a =>
    .object [("base", .string a.base.symbol),
      ("feature", (a.form?.map fun f => Json.string f.symbol).getD .null)]

/-- A category, taken apart or written out. -/
def categoryRecord (full : Bool) (c : Category) : Json :=
  if full then components c else .string c.render

/-- The category of a derivation, if it has one. -/
def categoryMember (full : Bool) (d : Derivation) : String × Json :=
  ("cat", (d.category.map (categoryRecord full)).getD .null)

/-- The members of the object of a derivation. -/
def recordMembers (full : Bool) : Derivation → List (String × Json)
  | leaf c w =>
    [categoryMember full (leaf c w), ("word", (w.map Json.string).getD .null)]
  | raisedLeaf x y =>
    [categoryMember full (raisedLeaf x y), ("source", categoryRecord full x), ("word", .null)]
  | raised x y child =>
    [categoryMember full (raised x y child), ("source", categoryRecord full x),
      ("type", .string (raised x y child).code),
      ("children", .array [.object (recordMembers full child)])]
  | node r left right =>
    [categoryMember full (node r left right), ("type", .string r.code),
      ("children", .array
        [.object (recordMembers full left), .object (recordMembers full right)])]

/-- The object of a derivation. -/
def record (full : Bool) (d : Derivation) : Json :=
  .object (recordMembers full d)

end Categorial.Export

import Categorial.Derivation.Basic

/-!
# Derivations in the auto format

A derivation in brackets on one line. A leaf has its label, its word and its label again, with `POS`
in the place of the tags that a derivation does not have; any other part has its label, `0` or `1`
for the side of the head and the number of its parts. The extended format has no tags and names the
step that ends each part.

* `auto`, `autoExtended`: a derivation in either format.
-/

namespace Categorial.Export

open Categorial.Derivation

/-- The side of the head, `0` for the left. -/
def headDigit (d : Derivation) : String :=
  if d.headIsLeft then "0" else "1"

/-- A leaf in the auto format. -/
def autoLeaf (d : Derivation) : String :=
  "(<L " ++ d.label ++ " POS POS " ++ shownWord d.token ++ " " ++ d.label ++ ">)"

/-- What stands in front of the parts of a derivation in the auto format. -/
def autoHead (d : Derivation) (parts : Nat) : String :=
  "(<T " ++ d.label ++ " " ++ headDigit d ++ " " ++ toString parts ++ "> "

/-- A derivation in the auto format. -/
def auto : Derivation → String
  | raised x y child => autoHead (raised x y child) 1 ++ auto child ++ " )"
  | node r left right =>
    autoHead (node r left right) 2 ++ auto left ++ " " ++ auto right ++ " )"
  | d => autoLeaf d

/-- A leaf in the extended auto format. -/
def extendedLeaf (d : Derivation) : String :=
  "(<L " ++ d.label ++ " " ++ shownWord d.token ++ " " ++ d.label ++ ">)"

/-- What stands in front of the parts of a derivation in the extended auto format. -/
def extendedHead (d : Derivation) (parts : Nat) : String :=
  "(<T " ++ d.label ++ " " ++ d.code ++ " " ++ headDigit d ++ " " ++ toString parts ++ "> "

/-- A derivation in the extended auto format. -/
def autoExtended : Derivation → String
  | raised x y child => extendedHead (raised x y child) 1 ++ autoExtended child ++ " )"
  | node r left right =>
    extendedHead (node r left right) 2 ++ autoExtended left ++ " " ++ autoExtended right ++ " )"
  | d => extendedLeaf d

end Categorial.Export

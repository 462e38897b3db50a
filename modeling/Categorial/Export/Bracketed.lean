import Categorial.Derivation.Basic

/-!
# Bracketed trees

A derivation as nested brackets, each with a label in front: of a word, or of further brackets. The
whole stands below `ROOT`.

* `bracketed`: a derivation in this format.
-/

namespace Categorial.Export

open Categorial.Derivation

/-- A part of a derivation in brackets. -/
def brackets : Derivation → String
  | raised x y child => "(" ++ (raised x y child).label ++ " " ++ brackets child ++ ")"
  | node r left right =>
    "(" ++ (node r left right).label ++ " " ++ brackets left ++ " " ++ brackets right ++ ")"
  | d => "(" ++ d.label ++ " " ++ shownWord d.token ++ ")"

/-- A derivation in brackets. -/
def bracketed (d : Derivation) : String :=
  "(ROOT " ++ brackets d ++ ")"

end Categorial.Export

import Categorial.Derivation.Basic
import Categorial.Text.Align
import Categorial.Text.Blank

/-!
# Drawn derivations

A derivation drawn on lines. The labels of the leaves are in the first line and their words in the
second, each in the middle of a column two wider than the longer of the two. Below them every step
has two lines, in the order in which the steps are made: a line of dashes under the columns of the
step, which ends with the sign of the rule, and the label of the step in the middle of these
columns. No line has blanks at its end.

* `diagram`: the drawing of a derivation.
-/

namespace Categorial.Export

open Categorial.Derivation

/-- The label of a leaf. -/
def leafLabel (d : Derivation) : List Char :=
  d.label.toList

/-- The word of a leaf as it is drawn. -/
def leafWord (d : Derivation) : List Char :=
  (shownWord d.token).toList

/-- The width of the column of a leaf. -/
def columnWidth (leaf : Derivation) : Nat :=
  2 + max (leafLabel leaf).length (leafWord leaf).length

/-- The total width of the first columns of a derivation. -/
def offset (leaves : List Derivation) (k : Nat) : Nat :=
  ((leaves.take k).map columnWidth).foldr (· + ·) 0

/-- The number of leaves of a derivation. -/
def breadth : Derivation → Nat
  | raised _ _ child => breadth child
  | node _ left right => breadth left + breadth right
  | _ => 1

/-- The two lines of a step whose first column is number `start`. -/
def stepLines (leaves : List Derivation) (start : Nat) (d : Derivation) : List (List Char) :=
  let indent := Text.spaces (offset leaves start)
  let width := offset leaves (start + breadth d) - offset leaves start
  let symbol := d.symbol.toList
  [indent ++ List.replicate (max (width - symbol.length) 1) '-' ++ symbol,
    indent ++ Text.center width d.label.toList]

/-- The lines of all steps of a derivation whose first leaf is number `start`. -/
def allStepLines (leaves : List Derivation) : Nat → Derivation → List (List Char)
  | start, raised x y child =>
    allStepLines leaves start child ++ stepLines leaves start (raised x y child)
  | start, node r left right =>
    allStepLines leaves start left ++ allStepLines leaves (start + breadth left) right ++
      stepLines leaves start (node r left right)
  | _, _ => []

/-- The lines of a drawing, before blanks at their ends are taken away. -/
def diagramLines (d : Derivation) : List (List Char) :=
  let leaves := d.leaves
  leaves.flatMap (fun leaf => Text.center (columnWidth leaf) (leafLabel leaf)) ::
    leaves.flatMap (fun leaf => Text.center (columnWidth leaf) (leafWord leaf)) ::
      allStepLines leaves 0 d

/-- A derivation drawn on lines. -/
def diagram (d : Derivation) : String :=
  String.join ((diagramLines d).map fun line => String.ofList (Text.stripRight line) ++ "\n")

theorem breadth_eq_length_leaves (d : Derivation) : breadth d = d.leaves.length := by
  induction d with
  | leaf | raisedLeaf => rfl
  | raised _ _ _ ih => exact ih
  | node _ _ _ ihl ihr => simp only [breadth, leaves, List.length_append, ihl, ihr]

end Categorial.Export

import Std.Data.HashMap
import Categorial.Category.Basic

/-!
# Scores of categories

Where the scores of lexical categories come from: all categories alike, or a table with a row for
each word of the sentence and a column for each of a list of categories. A category without column
is never chosen, a category with several columns has the score of the last of them. Rows can also
be counted from the end, by negative numbers.

* `TagScores.ofTensor`: a table needs two dimensions, the second as long as the list.
* `TagScores.score`: the score of a category at a position.
-/

namespace Categorial

/-- A block of numbers, given by its size in each dimension and its entries in order. -/
structure Tensor (α : Type) where
  shape : List Nat
  entries : Array α

/-- A block of numbers that is no table for the given number of categories. -/
structure ShapeError where
  categories : Nat
  shape : List Nat
  deriving DecidableEq

/-- The sizes of a block, in round brackets and with a comma behind a single one. -/
def renderShape : List Nat → String
  | [n] => "(" ++ toString n ++ ",)"
  | ns => "(" ++ ", ".intercalate (ns.map toString) ++ ")"

/-- What is wrong, in words. -/
def ShapeError.message (e : ShapeError) : String :=
  "invalid shape of the tag score matrix:\nExpected: (*, " ++ toString e.categories ++
    "), Actual: " ++ renderShape e.shape

/-- A row that a table does not have. -/
structure RowError where
  row : Int
  size : Nat
  deriving DecidableEq

/-- What is wrong, in words. -/
def RowError.message (e : RowError) : String :=
  "index " ++ toString e.row ++ " is out of bounds for axis 0 with size " ++ toString e.size

/-- A table of the scores of categories, by position in the sentence. -/
structure TagScores (α : Type) where
  rows : Nat
  columns : Nat
  entries : Array α
  column : Std.HashMap Category Nat

namespace TagScores

variable {α : Type}

/-- The column of each category of a list, the last one if it is listed more than once. -/
def columnsOf (categories : List Category) : Std.HashMap Category Nat :=
  (categories.zipIdx).foldl (fun m (c, k) => m.insert c k) ∅

/-- The table that a block of numbers gives for a list of categories. -/
def ofTensor (t : Tensor α) (categories : List Category) : Except ShapeError (TagScores α) :=
  match t.shape with
  | [rows, columns] =>
    if columns = categories.length then .ok ⟨rows, columns, t.entries, columnsOf categories⟩
    else .error ⟨categories.length, t.shape⟩
  | _ => .error ⟨categories.length, t.shape⟩

/-- The row at a position, which may be counted from the end. -/
def row (t : TagScores α) (position : Int) : Except RowError Nat :=
  if 0 ≤ position ∧ position < t.rows then .ok position.toNat
  else if position < 0 ∧ 0 ≤ position + t.rows then .ok (position + t.rows).toNat
  else .error ⟨position, t.rows⟩

/-- The score of a category at a position, if the category has a column. -/
def score (t : TagScores α) (position : Int) (c : Category) : Except RowError (Option α) :=
  match t.column[c]? with
  | none => .ok none
  | some k => do
    let r ← t.row position
    return t.entries[r * t.columns + k]?

end TagScores

end Categorial

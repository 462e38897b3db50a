import Std.Data.HashMap
import Categorial.Change
import Categorial.Ordered.Set
import Categorial.Derivation.Basic

/-!
# Charts

A chart is the triangular table of the derivations of the parts of a sentence. The cell `(i, j)`
is for the words from place `i` up to, but not including, place `j`, and exists for
`0 ≤ i < j ≤ size`. It holds derivations in the order in which they were added, each once.

* `cell_insertAll`: adding to a cell changes this cell and no other.
* `add`, `get`, `root`: the same with the span checked.
-/

namespace Categorial

/-- The places of the first word of a part of a sentence and of the first word behind it. -/
abbrev Span := Nat × Nat

/-- A span that a chart of the given size does not have. -/
structure SpanError where
  start : Int
  stop : Int
  size : Int
  deriving DecidableEq

/-- What is wrong, in words. -/
def SpanError.message (e : SpanError) : String :=
  "invalid span (" ++ toString e.start ++ ", " ++ toString e.stop ++ ") for a chart of size " ++
    toString e.size

/-- The derivations of the parts of a sentence. -/
structure Chart where
  size : Int
  cells : Std.HashMap Span (OrderedSet Derivation)

namespace Chart

/-- The chart of the given size whose cells are empty. -/
def empty (size : Int) : Chart :=
  ⟨size, ∅⟩

/-- The set in a cell. -/
def cellSet (c : Chart) (span : Span) : OrderedSet Derivation :=
  c.cells.getD span .empty

/-- The derivations in a cell. -/
def cell (c : Chart) (span : Span) : List Derivation :=
  (c.cellSet span).toList

/-- Adds derivations to a cell. -/
def insertAll (c : Chart) (span : Span) (ds : List Derivation) : Chart :=
  ⟨c.size, c.cells.insert span ((c.cellSet span).insertAll ds)⟩

/-- The number of derivations in all cells together. -/
def count (c : Chart) : Nat :=
  c.cells.fold (fun n _ cell => n + cell.size) 0

theorem cellSet_insertAll (c : Chart) (span other : Span) (ds : List Derivation) :
    (c.insertAll span ds).cellSet other =
      if span = other then (c.cellSet span).insertAll ds else c.cellSet other := by
  simp only [insertAll, cellSet, Std.HashMap.getD_insert, beq_iff_eq]

theorem cell_insertAll (c : Chart) (span other : Span) (ds : List Derivation) :
    (c.insertAll span ds).cell other =
      if span = other then ((c.cellSet span).insertAll ds).toList else c.cell other := by
  rw [cell, cellSet_insertAll]
  split <;> rfl

/-! ## Access by checked spans -/

/-- The cell at the given places, if the chart has it. -/
def locate (c : Chart) (start stop : Int) : Except SpanError Span :=
  if 0 ≤ start ∧ start < stop ∧ stop ≤ c.size then .ok (start.toNat, stop.toNat)
  else .error ⟨start, stop, c.size⟩

/-- The derivations at the given places. -/
def get (c : Chart) (start stop : Int) : Except SpanError (List Derivation) :=
  (c.locate start stop).map c.cell

/-- Adds derivations at the given places, and counts the new ones. -/
def add (start stop : Int) (ds : List Derivation) : Change SpanError Chart Nat := do
  let span ← (← getThe Chart).locate start stop
  let size := ((← getThe Chart).cellSet span).size
  modify (·.insertAll span ds)
  return ((← getThe Chart).cellSet span).size - size

/-- The derivations of the whole sentence; none for the chart of no words. -/
def root (c : Chart) : Except SpanError (List Derivation) :=
  if c.size = 0 then .ok [] else c.get 0 c.size

end Chart

end Categorial

import Categorial.Chart.Basic
import Categorial.Derivation.Parents

/-!
# Exhaustive parsing

All derivations of a sentence by filling a chart from the words up. A cell of one word holds the
categories of the word; the cell of a longer span is filled when those of all shorter spans are,
from every way of cutting the span in two. One cache of inferences serves the whole sentence.

* `spans`: the order in which the longer cells are filled.
* `parse`: the derivations of a sentence.
* `parseEvents`: what is reported on the way.
-/

namespace Categorial

/-- The categories of a word. -/
abbrev LexicalEntries := String → List Category

namespace Chart

/-- The spans of at least two words of a sentence of `size` words, shorter ones first and spans of
one length from left to right. -/
def spans (size : Nat) : List Span :=
  (List.range (size - 1)).flatMap fun m =>
    (List.range (size - 1 - m)).map fun i => (i, i + m + 2)

/-- The places strictly inside a span, from left to right. -/
def splits (span : Span) : List Nat :=
  (List.range (span.2 - span.1 - 1)).map fun k => span.1 + 1 + k

/-- The derivations of a word. -/
def leavesOf (lexicon : LexicalEntries) (word : String) : List Derivation :=
  (lexicon word).map fun c => .leaf c (some word)

/-- The chart with the cells of single words filled, from place `start` on. -/
def fillWords (lexicon : LexicalEntries) : Nat → List String → Chart → Chart
  | _, [], c => c
  | start, word :: words, c =>
    fillWords lexicon (start + 1) words
      (c.insertAll (start, start + 1) (leavesOf lexicon word))

/-- The chart of a sentence with the cells of its single words filled. -/
def ofWords (lexicon : LexicalEntries) (words : List String) : Chart :=
  fillWords lexicon 0 words (empty words.length)

/-- The derivations above two cells: for each derivation of the left cell, for each of the right
one. -/
def joinCells (lefts rights : List Derivation) : StateM Cache (List Derivation) := do
  let rows ← lefts.mapM fun left => do
    let row ← rights.mapM fun right => Derivation.cachedParents left right
    return row.flatten
  return rows.flatten

/-- The derivations of a span from the cells of its parts. -/
def joinSplits (c : Chart) (span : Span) : StateM Cache (List Derivation) := do
  let parts ← (splits span).mapM fun k => joinCells (c.cell (span.1, k)) (c.cell (k, span.2))
  return parts.flatten

/-- The chart with one more cell filled. -/
def fillSpan (c : Chart) (span : Span) : StateM Cache Chart := do
  return c.insertAll span (← joinSplits c span)

/-- The chart of a sentence with all cells filled. -/
def ofSentence (lexicon : LexicalEntries) (words : List String) : Chart :=
  (((spans words.length).foldlM fillSpan (ofWords lexicon words)).run .empty).1

/-- The reports on words without categories. -/
def unknownWords (lexicon : LexicalEntries) (words : List String) : List Event :=
  (words.filter fun w => (lexicon w).isEmpty).map (.unknownWord .chart)

end Chart

/-- The derivations of a sentence, without repetition. -/
def parse (lexicon : LexicalEntries) (words : List String) : List Derivation :=
  (Chart.ofSentence lexicon words).cell (0, words.length)

/-- What is reported while a sentence is parsed: the words without categories, then how many
derivations each longer span has. -/
def parseEvents (lexicon : LexicalEntries) (words : List String) : List Event :=
  let c := Chart.ofSentence lexicon words
  Chart.unknownWords lexicon words ++
    (Chart.spans words.length).map fun span => .spanFilled span.1 span.2 (c.cell span).length

end Categorial

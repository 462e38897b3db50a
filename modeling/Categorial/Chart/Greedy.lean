import Categorial.Chart.Exhaustive

/-!
# Deterministic parsing

One derivation of a sentence by filling a chart with at most one derivation for each span of
several words: the first that is found, trying the cuts of the span from left to right and the
categories of single words in the order of the lexicon. The first rule that applies is followed.

* `parseGreedy`: the derivation found, if any.
* `greedyEvents`: what is reported on the way.
-/

namespace Categorial

namespace Chart

/-- The first derivation above a derivation of the left cell and one of the right cell. -/
def firstJoin : List Derivation → List Derivation → StateM Cache (Option Derivation)
  | [], _ => pure none
  | left :: lefts, rights => do
    match ← firstAbove left rights with
    | some d => return some d
    | none => firstJoin lefts rights
where
  /-- The first derivation above the given one and one of the right cell. -/
  firstAbove (left : Derivation) : List Derivation → StateM Cache (Option Derivation)
    | [] => pure none
    | right :: rights => do
      match ← Derivation.cachedFirstParent left right with
      | some d => return some d
      | none => firstAbove left rights

/-- The first derivation of a span from the cells of its parts, cut at one of the given places. -/
def firstSplit (c : Chart) (span : Span) : List Nat → StateM Cache (Option Derivation)
  | [] => pure none
  | k :: ks => do
    match ← firstJoin (c.cell (span.1, k)) (c.cell (k, span.2)) with
    | some d => return some d
    | none => firstSplit c span ks

/-- The chart with at most one derivation added for one more span. -/
def fillFirst (c : Chart) (span : Span) : StateM Cache Chart := do
  return c.insertAll span (← firstSplit c span (splits span)).toList

/-- The chart of a sentence with one derivation for each span of several words. -/
def greedy (lexicon : LexicalEntries) (words : List String) : Chart :=
  (((spans words.length).foldlM fillFirst (ofWords lexicon words)).run .empty).1

end Chart

/-- A derivation of a sentence, if the deterministic parser finds one. -/
def parseGreedy (lexicon : LexicalEntries) (words : List String) : Option Derivation :=
  ((Chart.greedy lexicon words).cell (0, words.length)).head?

/-- The report on the choice that led to a derivation: there was one unless it took raising. -/
def choiceEvents : Derivation → List Event
  | .node _ (.raised ..) _ => []
  | .node _ left right => left.ambiguity right
  | _ => []

/-- What is reported while a sentence is parsed: the words without categories, then the choices
between rules in the order in which they are made. -/
def greedyEvents (lexicon : LexicalEntries) (words : List String) : List Event :=
  let c := Chart.greedy lexicon words
  Chart.unknownWords lexicon words ++
    (Chart.spans words.length).flatMap fun span => (c.cell span).flatMap choiceEvents

end Categorial

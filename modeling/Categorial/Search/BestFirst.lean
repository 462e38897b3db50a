import Categorial.Chart.Exhaustive
import Categorial.Search.Agenda
import Categorial.Search.Grouped
import Categorial.Search.Outside
import Categorial.Search.Scores

/-!
# Best-first search

The best derivations of a sentence, found one after the other. A derivation costs the scores of its
leaves, negated, and a penalty for each use of type raising. Its priority is this cost and the
least cost of the words outside of its span. The derivation with the least priority is taken from
the agenda and combined with the derivations taken before that are next to it. For each span and
category only as many derivations are kept as are asked for.

The numbers may be of any kind with the usual operations; no law of arithmetic and no property of
the order is assumed.

* `Search.step`: what happens when an item is taken from the agenda.
* `search`: the best derivations of a sentence, and how the search ended.
-/

namespace Categorial

/-! ## Requests and outcomes -/

/-- The score of a category for a word at a position: none if the category is not available, an
error if there is no answer. -/
abbrev Scorer (ε α : Type) := Nat → String → Category → Except ε (Option α)

/-- The scorer to which all categories are alike. -/
def uniformScorer {ε α : Type} [OfNat α 0] : Scorer ε α :=
  fun _ _ _ => .ok (some 0)

/-- The scorer of a table; scores that are not finite make a category unavailable. -/
def tableScorer (t : TagScores Float) : Scorer RowError Float := fun position _ c => do
  return (← t.score position c).filter Float.isFinite

/-- What is asked of a search: how many derivations, after how many steps to give up, the cost of
type raising, and the categories a derivation of the sentence may have, if they are limited. -/
structure Request (α : Type) where
  count : Int
  maxSteps : Int
  penalty : α
  roots : Option (List Category)

/-- The request for one derivation of any category. -/
def Request.standard : Request Float :=
  ⟨1, 10000000, 0.1, none⟩

/-- How a search ended. -/
inductive Ending
  /-- There were no words. -/
  | noWords
  /-- A word had no available category. -/
  | unknownWord (word : String)
  /-- The agenda was empty or enough derivations were found. -/
  | finished
  /-- The number of steps was exhausted. -/
  | gaveUp
  deriving DecidableEq

/-- The derivations that a search found, the best first, and how it ended. -/
structure Outcome (α : Type) where
  results : List (Scored α)
  steps : Nat
  ending : Ending

/-- What is reported of a search. -/
def Outcome.events {α : Type} (o : Outcome α) : List Event :=
  match o.ending with
  | .noWords => []
  | .unknownWord w => [.unknownWord .search w]
  | .finished => [.searched o.results.length o.steps]
  | .gaveUp => [.gaveUp o.steps, .searched o.results.length o.steps]

/-- Why a search cannot start. -/
inductive SearchError (ε : Type)
  | negativePenalty
  | noScore (e : ε)

/-- What is wrong, in words. -/
def SearchError.message {ε : Type} (scoreMessage : ε → String) : SearchError ε → String
  | negativePenalty => "raise_penalty must not be negative"
  | noScore e => scoreMessage e

/-! ## Items -/

/-- A derivation of a span on the agenda. -/
structure Item (α : Type) where
  priority : α
  derivation : Derivation
  cost : α
  start : Nat
  stop : Nat

namespace Item

variable {α : Type}

/-- Whether an item comes before another: by priority alone. -/
def before [LT α] [DecidableLT α] (a b : Item α) : Bool :=
  a.priority < b.priority

/-- The span and the category of an item, under which derivations are counted. -/
def slot (a : Item α) : Span × Option Category :=
  ((a.start, a.stop), a.derivation.category)

end Item

/-- How many times type raising is used in the step that ends a derivation. -/
def raisings : Derivation → Nat
  | .node _ (.raisedLeaf ..) _ | .node _ (.raised ..) _ => 1
  | _ => 0

namespace Search

variable {α : Type} [Add α] [Sub α] [Neg α] [Mul α] [OfNat α 0] [OfNat α 1] [LT α] [DecidableLT α]

/-- A number of uses as a factor. -/
def factor (n : Nat) : α :=
  if n = 0 then 0 else 1

/-- What does not change during a search: the request, the length of the sentence and the sums of
the best scores of its words. -/
structure Frame (α : Type) where
  request : Request α
  size : Nat
  sums : Array α

/-- The least cost of the words outside of a span. -/
def Frame.outside (f : Frame α) (i j : Nat) : α :=
  -outsideOf f.sums i j

/-- How many derivations are asked for. -/
def Frame.limit (f : Frame α) : Nat :=
  f.request.count.toNat

/-- Whether a derivation of the sentence may have the category. -/
def Frame.admits (f : Frame α) (c : Option Category) : Bool :=
  match f.request.roots, c with
  | none, _ => true
  | some _, none => false
  | some cs, some c => cs.contains c

/-- The state of a search: the agenda, the derivations kept for each span and category, the items
taken so far by their start and by their stop, the inferences known, the results and the number of
steps. -/
structure State (α : Type) where
  agenda : Agenda (Item α)
  kept : Grouped (Span × Option Category) Derivation
  byStart : Grouped Nat (Item α)
  byStop : Grouped Nat (Item α)
  cache : Cache
  results : Array (Scored α)
  steps : Nat

/-- Whether nothing is left to do. -/
def State.isFinished (f : Frame α) (s : State α) : Bool :=
  s.agenda.isEmpty || f.limit ≤ s.results.size

/-- The item of a derivation above those of two others. -/
def parentItem (f : Frame α) (left right : Item α) (d : Derivation) : Item α :=
  let cost := left.cost + right.cost + f.request.penalty * factor (raisings d)
  ⟨cost + f.outside left.start right.stop, d, cost, left.start, right.stop⟩

/-- Puts the items above two neighbours on an agenda, with the inferences known so far. -/
def pushParents (f : Frame α) (left right : Item α) :
    Agenda (Item α) × Cache → Agenda (Item α) × Cache
  | (agenda, cache) =>
    let (ds, cache) := (Derivation.cachedParents left.derivation right.derivation).run cache
    (ds.foldl (fun q d => q.insert Item.before (parentItem f left right d)) agenda, cache)

/-- Files an item and combines it with its right and left neighbours among those filed. -/
def expand (f : Frame α) (item : Item α) (s : State α) : State α :=
  let byStart := s.byStart.insert item.start item
  let byStop := s.byStop.insert item.stop item
  let front := (byStart.group item.stop).foldl (fun p right => pushParents f item right p)
    (s.agenda, s.cache)
  let front := (byStop.group item.start).foldl (fun p left => pushParents f left item p) front
  { s with agenda := front.1, cache := front.2, byStart := byStart, byStop := byStop }

/-- Takes note of an item: one of the whole sentence is a result if its category is admitted, any
other is combined with its neighbours. -/
def accept (f : Frame α) (item : Item α) (s : State α) : State α :=
  let s := { s with kept := s.kept.insert item.slot item.derivation }
  if item.start = 0 ∧ item.stop = f.size then
    if f.admits item.derivation.category then
      { s with results := s.results.push ⟨item.derivation, -item.cost⟩ }
    else s
  else expand f item s

/-- Whether an item is passed over: enough derivations of its slot are kept, or it is one of
them. -/
def State.passesOver (f : Frame α) (s : State α) (item : Item α) : Bool :=
  let kept := s.kept.group item.slot
  f.limit ≤ kept.length || kept.contains item.derivation

/-- Takes the first item from the agenda and deals with it. -/
def step (f : Frame α) (s : State α) : State α :=
  match s.agenda.remove? Item.before with
  | none => s
  | some (item, agenda) =>
    let s := { s with agenda := agenda, steps := s.steps + 1 }
    if s.passesOver f item then s else accept f item s

/-- The state when nothing is left to do or the given number of steps is exhausted, and whether the
latter is the case. -/
def run (f : Frame α) : Nat → State α → State α × Bool
  | 0, s => (s, !s.isFinished f)
  | n + 1, s => if s.isFinished f then (s, false) else run f n (step f s)

/-! ## The start of a search -/

/-- The available categories of a word at a position, with their scores. -/
def scoredLeaves {ε : Type} (scorer : Scorer ε α) (lexicon : LexicalEntries) (position : Nat)
    (word : String) : Except ε (List (Derivation × α)) := do
  let scored ← (lexicon word).mapM fun c => do
    return (← scorer position word c).map fun score => (Derivation.leaf c (some word), score)
  return scored.filterMap id

/-- The first of the greatest scores of a list. -/
def best : List (Derivation × α) → α
  | [] => 0
  | (_, score) :: rest => rest.foldl (fun m (_, x) => if m < x then x else m) score

/-- The scored leaves of the words from a position on, or the first word that has none. -/
def leavesFrom {ε : Type} (scorer : Scorer ε α) (lexicon : LexicalEntries) :
    Nat → List String → Except ε (String ⊕ List (List (Derivation × α)))
  | _, [] => .ok (.inr [])
  | position, word :: words => do
    match ← scoredLeaves scorer lexicon position word with
    | [] => return .inl word
    | leaves =>
      match ← leavesFrom scorer lexicon (position + 1) words with
      | .inl unknown => return .inl unknown
      | .inr rest => return .inr (leaves :: rest)

/-- The item of a scored leaf at a position. -/
def leafItem (f : Frame α) (position : Nat) (leaf : Derivation × α) : Item α :=
  ⟨-leaf.2 + f.outside position (position + 1), leaf.1, -leaf.2, position, position + 1⟩

/-- The items of the scored leaves of all words. -/
def leafItems (f : Frame α) (leaves : List (List (Derivation × α))) : List (Item α) :=
  leaves.zipIdx.flatMap fun (ls, position) => ls.map (leafItem f position)

/-- The state in which the agenda holds the leaves. -/
def start (f : Frame α) (leaves : List (List (Derivation × α))) : State α :=
  ⟨.ofList Item.before (leafItems f leaves), .empty, .empty, .empty, .empty, #[], 0⟩

/-- The frame for a request and the scored leaves of a sentence. -/
def frame (request : Request α) (leaves : List (List (Derivation × α))) : Frame α :=
  ⟨request, leaves.length, outsideSums (leaves.map best)⟩

/-- The outcome of a search from the scored leaves of a sentence. -/
def ofLeaves (request : Request α) (leaves : List (List (Derivation × α))) : Outcome α :=
  let f := frame request leaves
  let (s, cut) := run f request.maxSteps.toNat (start f leaves)
  ⟨s.results.toList, s.steps, if cut then .gaveUp else .finished⟩

end Search

/-- The best derivations of a sentence. -/
def search {ε α : Type} [Add α] [Sub α] [Neg α] [Mul α] [OfNat α 0] [OfNat α 1] [LT α]
    [DecidableLT α] (scorer : Scorer ε α) (lexicon : LexicalEntries) (request : Request α)
    (words : List String) : Except (SearchError ε) (Outcome α) :=
  if words.isEmpty then .ok ⟨[], 0, .noWords⟩
  else if request.penalty < 0 then .error .negativePenalty
  else match Search.leavesFrom scorer lexicon 0 words with
    | .error e => .error (.noScore e)
    | .ok (.inl unknown) => .ok ⟨[], 0, .unknownWord unknown⟩
    | .ok (.inr leaves) => .ok (Search.ofLeaves request leaves)

end Categorial

import Categorial.Derivation.Basic
import Categorial.Event
import Categorial.Grammar.Cache

/-!
# Parents

The derivations that have two given ones as their parts: one for each binary rule that applies to
their categories, and one in which the left part is raised to compose with the right one. The
inferences for the pair of categories are an argument, so that they may come from a cache.

* `parents`: all derivations above two others, in order.
* `firstParent`: the one that a deterministic parser takes.
* `ambiguity`: what is passed over with that choice.
-/

namespace Categorial

namespace Derivation

/-- The derivation in which the left part is raised to compose with the right one, where `x` and
`y` are the categories of the parts. -/
def raisedParent? (x y : Category) (left right : Derivation) : Option Derivation :=
  ((raiseAgainst x y).bind fun z => forwardCompose z y).map fun _ =>
    node .forwardCompose (raised x y left) right

/-- The derivations above two others from the inferences `found` for their categories. -/
def parentsFrom (found : List Inference) (x y : Category) (left right : Derivation) :
    List Derivation :=
  found.map (fun i => node i.rule left right) ++ (raisedParent? x y left right).toList

/-- The first derivation above two others from the inferences for their categories: by the first
rule that applies, and by raising only if none does. -/
def firstParentFrom (found : List Inference) (x y : Category) (left right : Derivation) :
    Option Derivation :=
  match found with
  | i :: _ => some (node i.rule left right)
  | [] => raisedParent? x y left right

/-- The derivations above two others. -/
def parents (left right : Derivation) : List Derivation :=
  match left.category, right.category with
  | some x, some y => parentsFrom (inferences x y) x y left right
  | _, _ => []

/-- The first derivation above two others. -/
def firstParent (left right : Derivation) : Option Derivation :=
  match left.category, right.category with
  | some x, some y => firstParentFrom (inferences x y) x y left right
  | _, _ => none

/-- The derivations above two others, with the inferences from a cache. -/
def cachedParents (left right : Derivation) : StateM Cache (List Derivation) :=
  match left.category, right.category with
  | some x, some y => do return parentsFrom (← Cache.infer x y) x y left right
  | _, _ => pure []

/-- The first derivation above two others, with the inferences from a cache. -/
def cachedFirstParent (left right : Derivation) : StateM Cache (Option Derivation) :=
  match left.category, right.category with
  | some x, some y => do return firstParentFrom (← Cache.infer x y) x y left right
  | _, _ => pure none

/-- The report that several rules apply to the categories of two derivations, of which only the
first is followed. -/
def ambiguity (left right : Derivation) : List Event :=
  match left.category, right.category with
  | some x, some y =>
    match inferences x y with
    | i :: j :: more => [.ambiguous x y i.rule ((j :: more).map (·.rule))]
    | _ => []
  | _, _ => []

end Derivation

end Categorial

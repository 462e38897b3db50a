import Categorial.Category.Basic
import Categorial.Grammar.Rule

/-!
# Combination of two neighbours

The six binary rules as partial functions on the categories of two neighbours, the left one first.
A functor meets its argument on the side of its slash. Composition passes the missing argument of
one neighbour on to the result; the modalities of both slashes have to allow it.

A coordinating category `(X\X)/X` or `(X/X)\X`, written with the variable, takes any closed
category `C` and becomes `C\C` or `C/C`, a modifier that cannot be composed.

* `combine`: the category that a rule gives.
* `inferences`: all that the binary rules give, in the order of the rules.
-/

namespace Categorial

namespace Category

/-- Whether the category is `(X|X)|X` with the outer slash as given and the inner one reversed. -/
def isCoordinator (d : Direction) : Category → Bool
  | functor (functor var inner var) outer var =>
    outer.direction = d && inner.direction = d.inverse
  | _ => false

/-- The modifier of a category on the given side, closed to composition. -/
def modifier (d : Direction) (c : Category) : Category :=
  functor c ⟨d, .applicationOnly⟩ c

end Category

open Category

/-- `X/Y  Y  ⇒  X`, and `(X\X)/X  C  ⇒  C\C` for a closed category. -/
def forwardApply : Category → Category → Option Category
  | functor r d a, y =>
    if d.direction = .forward then
      if a = y then some r
      else if (functor r d a).isCoordinator .forward && !y.hasVariable then
        some (y.modifier .backward)
      else none
    else none
  | _, _ => none

/-- `Y  X\Y  ⇒  X`, and `C  (X/X)\X  ⇒  C/C` for a closed category. -/
def backwardApply : Category → Category → Option Category
  | x, functor r d a =>
    if d.direction = .backward then
      if a = x then some r
      else if (functor r d a).isCoordinator .backward && !x.hasVariable then
        some (x.modifier .forward)
      else none
    else none
  | _, _ => none

/-- Whether both modalities allow harmonic composition. -/
def harmonic (d e : Slash) : Bool :=
  d.modality.isHarmonic && e.modality.isHarmonic

/-- Whether both modalities allow crossing composition. -/
def crossing (d e : Slash) : Bool :=
  d.modality = .permutationLimiting && e.modality = .permutationLimiting

/-- `X/Y  Y/Z  ⇒  X/Z`, with the slash of the right neighbour. -/
def forwardCompose : Category → Category → Option Category
  | functor x d y, functor y' e z =>
    if d.direction = .forward && e.direction = .forward && y = y' && harmonic d e then
      some (functor x e z)
    else none
  | _, _ => none

/-- `X\Y  Y\Z  ⇒  X\Z`, with the slash of the left neighbour, whose argument is the one found. -/
def backwardCompose : Category → Category → Option Category
  | functor x d y, functor y' e z =>
    if d.direction = .backward && e.direction = .backward && y = y' && harmonic d e then
      some (functor x d z)
    else none
  | _, _ => none

/-- `X/Y  Y\Z  ⇒  X\Z`. -/
def forwardCrossCompose : Category → Category → Option Category
  | functor x d y, functor y' e z =>
    if d.direction = .forward && e.direction = .backward && y = y' && crossing d e then
      some (functor x e z)
    else none
  | _, _ => none

/-- `Y/Z  X\Y  ⇒  X/Z`. -/
def backwardCrossCompose : Category → Category → Option Category
  | functor y' d z, functor x e y =>
    if d.direction = .forward && e.direction = .backward && y = y' && crossing d e then
      some (functor x d z)
    else none
  | _, _ => none

/-- The category that a rule gives for two neighbours; type raising gives none. -/
def combine : Rule → Category → Category → Option Category
  | .forwardApply => forwardApply
  | .backwardApply => backwardApply
  | .forwardCompose => forwardCompose
  | .backwardCompose => backwardCompose
  | .forwardCrossCompose => forwardCrossCompose
  | .backwardCrossCompose => backwardCrossCompose
  | .forwardTypeRaise | .backwardTypeRaise => fun _ _ => none

/-- A category and the rule that gives it. -/
structure Inference where
  category : Category
  rule : Rule
  deriving DecidableEq

/-- What the given rules make of two neighbours, in the order of the rules. -/
def inferencesBy (rules : List Rule) (x y : Category) : List Inference :=
  rules.filterMap fun r => (combine r x y).map fun c => ⟨c, r⟩

/-- What the binary rules make of two neighbours. -/
def inferences (x y : Category) : List Inference :=
  inferencesBy Rule.binary x y

/-- The first of the rules that does not combine two neighbours. -/
def firstTypeRaising? (rules : List Rule) : Option Rule :=
  rules.find? (·.isTypeRaising)

theorem mem_inferencesBy {rules : List Rule} {x y : Category} {i : Inference} :
    i ∈ inferencesBy rules x y ↔ i.rule ∈ rules ∧ combine i.rule x y = some i.category := by
  simp only [inferencesBy, List.mem_filterMap, Option.map_eq_some_iff]
  constructor
  · rintro ⟨r, hr, c, hc, rfl⟩
    exact ⟨hr, hc⟩
  · rintro ⟨hr, hc⟩
    exact ⟨i.rule, hr, i.category, hc, rfl⟩

end Categorial

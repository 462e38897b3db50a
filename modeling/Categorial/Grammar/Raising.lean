import Categorial.Grammar.Combination

/-!
# Type raising

Raising turns an argument into a functor over the functors that look for it. `raise` does so for
any category, against the variable or a given target; `raiseAgainst` raises an atom just so that it
composes with the functor on its right, and is the one that derivations use. The unary rules are
the fixed raisings of nouns and noun phrases.

* `hasVariable_raise`: a category raised to a target has the variables of both.
-/

namespace Categorial

open Category

/-- The category raised to a target: `T/(T\x)` forward and `T\(T/x)` backward. -/
def raiseTo (x : Category) (d : Direction) (target : Category) : Category :=
  functor target ⟨d, .raising⟩ (functor target ⟨d.inverse, .raising⟩ x)

/-- The category raised against the variable; with a target, every variable of the outcome is
replaced by it, those of the category itself included. -/
def typeRaise (x : Category) (d : Direction) (target : Option Category) : Category :=
  match target with
  | none => raiseTo x d var
  | some t => (raiseTo x d var).substitute t

/-- The raised category by which an atom on the left of `(X|Y)/W` stands for its argument `Y`:
`X/(X|Y)`, with the modality of the inner slash. -/
def raiseAgainst (x neighbor : Category) : Option Category :=
  match x, neighbor with
  | atom a, functor (functor r d y) _ _ =>
    if y = atom a then some (functor r ⟨.forward, d.modality⟩ (functor r d y)) else none
  | _, _ => none

/-! ## Unary rules -/

/-- The raisings of a single category that hold without looking at a neighbour. -/
inductive UnaryRule
  | bareNoun
  | sentence
  | verbPhrase
  | prepositional
  deriving DecidableEq

namespace UnaryRule

/-- The unary rules in the order in which they are tried. -/
def all : List UnaryRule :=
  [bareNoun, sentence, verbPhrase, prepositional]

/-- The category that a rule applies to. -/
def premise : UnaryRule → Category
  | bareNoun => n
  | _ => np

/-- The category a rule gives: `NP`, `S/(S\NP)`, `(S\NP)/((S\NP)/NP)` or `(S\NP)/((S\NP)/PP)`. -/
def conclusion : UnaryRule → Category
  | bareNoun => np
  | sentence => forward s (backward s np)
  | verbPhrase => forward (backward s np) (forward (backward s np) np)
  | prepositional => forward (backward s np) (forward (backward s np) pp)

/-- The category that a rule gives. -/
def apply (r : UnaryRule) (x : Category) : Option Category :=
  if x = r.premise then some r.conclusion else none

end UnaryRule

/-- What the given unary rules make of a category, in the order of the rules. -/
def unaryInferences (rules : List UnaryRule) (x : Category) : List Category :=
  rules.filterMap (·.apply x)

/-- The short name of a unary step: raising if it leads to a functor, else a lexical step. -/
def unaryCode (conclusion : Category) : String :=
  if conclusion.isFunctor then "tr" else "lex"

/-- The sign of a unary step. -/
def unarySymbol : String :=
  "<un>"

theorem hasVariable_raiseTo (x : Category) (d : Direction) (t : Category) :
    (raiseTo x d t).hasVariable = (t.hasVariable || x.hasVariable) := by
  simp only [raiseTo, hasVariable]
  cases t.hasVariable <;> simp

end Categorial

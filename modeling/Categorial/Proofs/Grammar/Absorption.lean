import Categorial.Proofs.Grammar.Schema

/-!
# Absorption

Between categories without the variable, all six rules and composition after raising do the same
thing: a functor absorbs its neighbour, on whichever side it stands, and what is left is its result,
perhaps with an argument that the neighbour or the functor itself still waits for. `Absorbs` keeps
of a rule just this, without sides and modalities. The closed categories leave no room for a
coordinating one, which is the only way in which a category could grow.

* `absorbs_of_combine`, `absorbs_of_raise`: every join of closed categories is an absorption.
* `Absorbs.signedCount_eq`: no occurrence of an atom is gained or lost.
* `Absorbs.arity_le`, `Absorbs.mem_spineArguments`, `Absorbs.innermost?_eq`: what is left waits for
  no more arguments than the functor did, only for arguments of the two, and has the functor's head.
-/

namespace Categorial

/-! ## Measures of a category -/

namespace Category

/-- The occurrences of an atom in results less those in arguments. -/
def signedCount (a : Atom) : Category → Int
  | var => 0
  | atom b => if b = a then 1 else 0
  | functor r _ x => r.signedCount a - x.signedCount a

/-- The arguments of a category, of its result, of the result of this, and so on. -/
def spineArguments : Category → List Category
  | functor r _ x => x :: r.spineArguments
  | _ => []

/-- The atom that is left when all arguments of a category have been found, if it is one. -/
def innermost? : Category → Option Atom
  | functor r _ _ => r.innermost?
  | atom a => some a
  | var => none

theorem innermost?_isSome {c : Category} (hc : c.hasVariable = false) :
    c.innermost?.isSome := by
  induction c with
  | var => cases hc
  | atom a => rfl
  | functor r d x ihr _ =>
    rw [hasVariable, Bool.or_eq_false_iff] at hc
    exact ihr hc.1

end Category

open Category

/-! ## Absorption -/

/-- A functor, its neighbour on either side, and what becomes of them. -/
inductive Absorbs : Category → Category → Category → Prop
  /-- The neighbour is the argument. -/
  | whole (x y : Category) (d : Slash) : Absorbs (functor x d y) y x
  /-- The neighbour becomes the argument once it has found its own one. -/
  | result (x y z : Category) (d e s : Slash) :
      Absorbs (functor x d y) (functor y e z) (functor x s z)
  /-- The neighbour is the argument behind the first one. -/
  | second (x y z : Category) (d e s : Slash) :
      Absorbs (functor (functor x d y) e z) y (functor x s z)

theorem absorbs_of_combine {r : Rule} {x y c : Category} (hx : x.hasVariable = false)
    (hy : y.hasVariable = false) (h : combine r x y = some c) :
    Absorbs x y c ∨ Absorbs y x c := by
  cases combine_eq_some_iff.mp h with
  | forwardApply => exact .inl (.whole _ _ _)
  | backwardApply => exact .inr (.whole _ _ _)
  | forwardCoordinate => simp [hasVariable] at hx
  | backwardCoordinate => simp [hasVariable] at hy
  | forwardCompose _ _ x y z => exact .inl (.result x y z _ _ _)
  | backwardCompose _ _ x y z => exact .inl (.result x y z _ _ _)
  | forwardCrossCompose x y z => exact .inl (.result x y z _ _ _)
  | backwardCrossCompose x y z => exact .inr (.result x y z _ _ _)

/-- A coordinating category does grow: next to a transitive verb it takes three arguments. -/
example : (combine .forwardApply (forward (backward var var) var)
    (forward (backward s np) np)).map arity = some 3 := by decide

theorem absorbs_of_raise {x y z c : Category} (hraise : raiseAgainst x y = some z)
    (hcompose : forwardCompose z y = some c) : Absorbs y x c := by
  have hjoin : ((raiseAgainst x y).bind fun z => forwardCompose z y) = some c := by
    rw [hraise]
    exact hcompose
  cases raise_compose_eq_some_iff.mp hjoin with
  | intro _ _ a d r w => exact .second r (atom a) w _ _ _

namespace Absorbs

variable {f x c : Category}

theorem hasVariable_eq_false (h : Absorbs f x c) (hf : f.hasVariable = false)
    (hx : x.hasVariable = false) : c.hasVariable = false := by
  cases h with
  | whole | result | second =>
    simp only [hasVariable, Bool.or_eq_false_iff] at hf hx ⊢
    simp only [hf, hx, and_self]

theorem signedCount_eq (h : Absorbs f x c) (a : Atom) :
    c.signedCount a = f.signedCount a + x.signedCount a := by
  cases h with
  | whole | result | second =>
    simp only [signedCount]
    omega

theorem arity_le (h : Absorbs f x c) : c.arity ≤ f.arity := by
  cases h with
  | whole | result | second =>
    simp only [arity]
    omega

theorem mem_spineArguments (h : Absorbs f x c) {y : Category} (hy : y ∈ c.spineArguments) :
    y ∈ f.spineArguments ∨ y ∈ x.spineArguments := by
  cases h with
  | whole => exact .inl (List.mem_cons_of_mem _ hy)
  | result =>
    rcases List.mem_cons.mp hy with rfl | hy
    · exact .inr List.mem_cons_self
    · exact .inl (List.mem_cons_of_mem _ hy)
  | second =>
    rcases List.mem_cons.mp hy with rfl | hy
    · exact .inl List.mem_cons_self
    · exact .inl (List.mem_cons_of_mem _ (List.mem_cons_of_mem _ hy))

theorem innermost?_eq (h : Absorbs f x c) : c.innermost? = f.innermost? := by
  cases h <;> rfl

end Absorbs

end Categorial

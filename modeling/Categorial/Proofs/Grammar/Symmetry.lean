import Categorial.Proofs.Grammar.Schema

/-!
# Left and right

A category is reflected by turning every slash in it to the other side. Application and crossing
composition do not tell left from right: reflecting two neighbours, whose order is then the other
one as well, and applying the rule of the other side gives the reflected outcome. Harmonic
composition does tell them apart, since the functor whose argument is the result of the other one is
the left neighbour on either side.

* `Category.reflect`, `Rule.reflect`: categories and rules with the sides exchanged.
* `Schema.reflect`: the instances of a rule, reflected, are those of the reflected rule.
* `combine_reflect`: what a rule gives is what the reflected one gives, reflected.
* `backward_rules_reflect_forward_rules`: the same for the two backward rules.
-/

namespace Categorial

/-! ## Reflection -/

/-- The slash to the other side, with its modality. -/
def Slash.reflect (d : Slash) : Slash :=
  ⟨d.direction.inverse, d.modality⟩

/-- The category with every slash, at any depth, turned to the other side. -/
def Category.reflect : Category → Category
  | var => var
  | atom a => atom a
  | functor r d x => functor r.reflect d.reflect x.reflect

namespace Rule

/-- The rule of the other side. -/
def reflect : Rule → Rule
  | forwardApply => backwardApply
  | backwardApply => forwardApply
  | forwardCompose => backwardCompose
  | backwardCompose => forwardCompose
  | forwardCrossCompose => backwardCrossCompose
  | backwardCrossCompose => forwardCrossCompose
  | forwardTypeRaise => backwardTypeRaise
  | backwardTypeRaise => forwardTypeRaise

/-- Whether the rule composes two functors of one side. -/
def isHarmonic : Rule → Bool
  | forwardCompose | backwardCompose => true
  | _ => false

@[simp] theorem reflect_reflect (r : Rule) : r.reflect.reflect = r := by
  cases r <;> rfl

@[simp] theorem isHarmonic_reflect (r : Rule) : r.reflect.isHarmonic = r.isHarmonic := by
  cases r <;> rfl

end Rule

namespace Category

@[simp] theorem reflect_reflect (c : Category) : c.reflect.reflect = c := by
  induction c with
  | var => rfl
  | atom => rfl
  | functor r d x ihr ihx => simp only [reflect, Slash.reflect, Direction.inverse_inverse, ihr, ihx]

@[simp] theorem hasVariable_reflect (c : Category) : c.reflect.hasVariable = c.hasVariable := by
  induction c with
  | var => rfl
  | atom => rfl
  | functor r d x ihr ihx => simp only [reflect, hasVariable, ihr, ihx]

end Category

open Category

/-! ## Rules -/

/-- A coordinating category is reflected into the one that looks to the other side. -/
theorem Schema.reflect {r : Rule} {x y c : Category} (h : Schema r x y c)
    (hr : r.isHarmonic = false) : Schema r.reflect y.reflect x.reflect c.reflect := by
  cases h with
  | forwardApply => exact .backwardApply _ _ _
  | backwardApply => exact .forwardApply _ _ _
  | forwardCoordinate hc m k =>
    rw [← hasVariable_reflect] at hc
    exact .backwardCoordinate hc m k
  | backwardCoordinate hc m k =>
    rw [← hasVariable_reflect] at hc
    exact .forwardCoordinate hc m k
  | forwardCompose | backwardCompose => cases hr
  | forwardCrossCompose => exact .backwardCrossCompose _ _ _
  | backwardCrossCompose => exact .forwardCrossCompose _ _ _

theorem combine_reflect {r : Rule} (hr : r.isHarmonic = false) (x y : Category) :
    combine r x y = (combine r.reflect y.reflect x.reflect).map Category.reflect := by
  ext c
  rw [Option.map_eq_some_iff, combine_eq_some_iff]
  constructor
  · intro h
    exact ⟨c.reflect, combine_eq_some_iff.mpr (h.reflect hr), c.reflect_reflect⟩
  · rintro ⟨d, hd, rfl⟩
    have h := (combine_eq_some_iff.mp hd).reflect (r.isHarmonic_reflect.trans hr)
    simpa only [Rule.reflect_reflect, reflect_reflect] using h

/-- Harmonic composition takes its neighbours in the same order on both sides. -/
example :
    backwardCompose (backward s np) (backward np pp) = some (backward s pp) ∧
      forwardCompose (backward np pp).reflect (backward s np).reflect = none := by
  decide

/-- **The backward rules are the forward rules, reflected.** For any two neighbours, with or without
the variable, backward application and backward crossing composition give what the forward rules
give for the reflected neighbours in the other order, reflected, and give nothing where these give
nothing. -/
theorem backward_rules_reflect_forward_rules (x y : Category) :
    backwardApply x y = (forwardApply y.reflect x.reflect).map Category.reflect ∧
      backwardCrossCompose x y =
        (forwardCrossCompose y.reflect x.reflect).map Category.reflect :=
  ⟨combine_reflect (r := .backwardApply) rfl x y,
    combine_reflect (r := .backwardCrossCompose) rfl x y⟩

end Categorial

import Categorial.Category.Basic

/-!
# The written form of a category

A functor is its result, its slash with the modality behind it, and its argument; a functor inside
another stands in brackets on either side. The feature of an atom stands in square brackets.

* `render_functor`: the written form of a functor from those of its parts.
-/

namespace Categorial

/-- The written form of a slash, its modality behind it. -/
def Slash.render (d : Slash) : String :=
  d.direction.symbol ++ d.modality.symbol

/-- The form of a symbol with a feature. -/
def renderFeature (base : Primitive) (form : ClauseForm) : String :=
  base.symbol ++ "[" ++ form.symbol ++ "]"

/-- The written form of an atom. -/
def Atom.render : Atom → String
  | bare b => b.symbol
  | clause f => renderFeature .sentence f

namespace FeatureError

/-- What is wrong, in words. -/
def message (e : FeatureError) : String :=
  "only sentence categories carry a feature: " ++ renderFeature e.base e.form

end FeatureError

namespace Category

/-- Puts the written form of a functor in brackets. -/
def bracket (c : Category) (text : String) : String :=
  if c.isFunctor then "(" ++ text ++ ")" else text

/-- The written form of a category. -/
def render : Category → String
  | var => "X"
  | atom a => a.render
  | functor r d x => bracket r r.render ++ d.render ++ bracket x x.render

theorem render_functor (r x : Category) (d : Slash) :
    (functor r d x).render = bracket r r.render ++ d.render ++ bracket x x.render :=
  rfl

end Category

end Categorial

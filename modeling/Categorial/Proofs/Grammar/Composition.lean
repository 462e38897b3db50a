import Mathlib.Logic.Basic
import Categorial.Proofs.Grammar.Schema

/-!
# Composition and application

A functor without the variable does nothing but take its argument on the side of its slash. So it is
all one whether `X|Y` and `Y|Z` are composed before `Z` is found, or `Z` is found first and what the
second functor gives is taken by the first one: both ways lead to the same category, or neither
leads to any. The four compositions differ only in the sides of the two slashes.

* `applyToward_of_closed`: application of a closed functor.
* `applyToward_compose`: composition and application of closed functors, on any sides.
* `application_of_composition`: the same for each of the four rules.
-/

namespace Categorial

open Category

/-- What a functor makes of its neighbour on the given side. -/
def applyToward : Direction → Category → Category → Option Category
  | .forward, f, x => forwardApply f x
  | .backward, f, x => backwardApply x f

theorem isCoordinator_eq_false {c : Category} (hc : c.hasVariable = false) (d : Direction) :
    c.isCoordinator d = false := by
  rw [Bool.eq_false_iff]
  intro hcoordinator
  obtain ⟨m, k, rfl⟩ := eq_of_isCoordinator hcoordinator
  simp [hasVariable] at hc

theorem applyToward_of_closed {r y : Category} {s : Slash}
    (hclosed : (functor r s y).hasVariable = false) (d : Direction) (x : Category) :
    applyToward d (functor r s y) x = if s.direction = d ∧ y = x then some r else none := by
  have hcoordinator := isCoordinator_eq_false hclosed
  cases d with
  | forward => simp [applyToward, forwardApply, hcoordinator, ite_and]
  | backward => simp [applyToward, backwardApply, hcoordinator, ite_and]

/-- The functor composed of `x|y` and `y|z` takes what the second one takes, and gives what the
first one then gives. Its modality does not matter. -/
theorem applyToward_compose {x y z : Category} {s t : Slash}
    (hfirst : (functor x s y).hasVariable = false) (hsecond : (functor y t z).hasVariable = false)
    (m : Modality) (w : Category) :
    applyToward t.direction (functor x ⟨t.direction, m⟩ z) w =
      (applyToward t.direction (functor y t z) w).bind
        (applyToward s.direction (functor x s y)) := by
  have hcomposed : (functor x ⟨t.direction, m⟩ z).hasVariable = false := by
    simp only [hasVariable, Bool.or_eq_false_iff] at hfirst hsecond ⊢
    exact ⟨hfirst.1, hsecond.2⟩
  rw [applyToward_of_closed hcomposed, applyToward_of_closed hsecond]
  by_cases hw : z = w
  · rw [if_pos ⟨rfl, hw⟩, if_pos ⟨rfl, hw⟩, Option.bind_some, applyToward_of_closed hfirst,
      if_pos ⟨rfl, rfl⟩]
  · rw [if_neg fun h => hw h.2, if_neg fun h => hw h.2, Option.bind_none]

/-- **Composition agrees with application.** When two categories without the variable are composed,
the outcome takes exactly the arguments that the second functor takes, on the same side, and gives
what the first functor makes of that. -/
theorem application_of_composition {x y : Category} (hx : x.hasVariable = false)
    (hy : y.hasVariable = false) (z : Category) :
    (∀ c, forwardCompose x y = some c →
        forwardApply c z = (forwardApply y z).bind fun v => forwardApply x v) ∧
      (∀ c, backwardCompose x y = some c →
        backwardApply z c = (backwardApply z y).bind fun v => backwardApply v x) ∧
      (∀ c, forwardCrossCompose x y = some c →
        backwardApply z c = (backwardApply z y).bind fun v => forwardApply x v) ∧
      ∀ c, backwardCrossCompose x y = some c →
        forwardApply c z = (forwardApply x z).bind fun v => backwardApply v y := by
  refine ⟨fun c h => ?_, fun c h => ?_, fun c h => ?_, fun c h => ?_⟩
  · cases schema_of_forwardCompose h with
    | @forwardCompose m k => exact applyToward_compose hx hy k z
  · cases schema_of_backwardCompose h with
    | @backwardCompose m k => exact applyToward_compose hx hy m z
  · cases schema_of_forwardCrossCompose h
    exact applyToward_compose hx hy .permutationLimiting z
  · cases schema_of_backwardCrossCompose h
    exact applyToward_compose hy hx .permutationLimiting z

/-- Two functors that cross both ways: each composition takes what is left of it. -/
theorem application_of_composition_crossing :
    let x := functor s ⟨.forward, .permutationLimiting⟩ np
    let y := functor np ⟨.backward, .permutationLimiting⟩ s
    x.hasVariable = false ∧ y.hasVariable = false ∧
      forwardCrossCompose x y = some (functor s ⟨.backward, .permutationLimiting⟩ s) ∧
      backwardApply s (functor s ⟨.backward, .permutationLimiting⟩ s) =
        (backwardApply s y).bind (fun v => forwardApply x v) ∧
      backwardApply s (functor s ⟨.backward, .permutationLimiting⟩ s) = some s ∧
      backwardCrossCompose x y = some (functor np ⟨.forward, .permutationLimiting⟩ np) ∧
      forwardApply (functor np ⟨.forward, .permutationLimiting⟩ np) np =
        (forwardApply x np).bind (fun v => backwardApply v y) ∧
      forwardApply (functor np ⟨.forward, .permutationLimiting⟩ np) np = some np := by
  intro x y
  have hx : x.hasVariable = false := rfl
  have hy : y.hasVariable = false := rfl
  exact ⟨hx, hy, by decide, (application_of_composition hx hy s).2.2.1 _ (by decide), by decide,
    by decide, (application_of_composition hx hy np).2.2.2 _ (by decide), by decide⟩

end Categorial

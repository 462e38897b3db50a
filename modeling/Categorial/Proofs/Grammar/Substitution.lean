import Categorial.Proofs.Grammar.Composition

/-!
# Substitution and raising to a target

Putting a category for the variable and then another one for the variables of the outcome is the
same as putting in what the second one makes of the first. Raising to a target puts the target for
the variables of the raised skeleton, and with them for those of the category that is raised: only
of a category without the variable is it true that the outcome is looked for by the functors that
look for this category.

* `Category.substitute_substitute`: two substitutions one after the other.
* `typeRaise_some`, `typeRaise_of_closed`: raising to a target.
* `applyToward_raiseTo`: what a raised category takes and gives.
* `substitution_laws`: the laws of substitution and of raising to a target.
-/

namespace Categorial

open Category

theorem Category.substitute_substitute (c t u : Category) :
    (c.substitute t).substitute u = c.substitute (t.substitute u) := by
  induction c with
  | var => rfl
  | atom => rfl
  | functor r d x ihr ihx => simp only [substitute, ihr, ihx]

/-- The target also stands for the variables of the category itself. -/
theorem typeRaise_some (x : Category) (d : Direction) (t : Category) :
    typeRaise x d (some t) = raiseTo (x.substitute t) d t :=
  rfl

theorem typeRaise_of_closed {x : Category} (hx : x.hasVariable = false) (d : Direction)
    (t : Category) : typeRaise x d (some t) = raiseTo x d t := by
  rw [typeRaise_some, substitute_of_closed t hx]

/-- Raised to `NP`, the variable is replaced as well. -/
example : typeRaise var .forward (some np) = raiseTo np .forward np := by decide

/-- On its side a raised category takes the functor over its source, and gives the target. -/
theorem applyToward_raiseTo (x : Category) (d : Direction) (t : Category) :
    applyToward d (raiseTo x d t) (functor t ⟨d.inverse, .raising⟩ x) = some t := by
  cases d with
  | forward => simp [applyToward, raiseTo, forwardApply]
  | backward => simp [applyToward, raiseTo, backwardApply]

/-- **Laws of substitution.** Two substitutions are one, by what the second makes of the target of
the first. A variable is left exactly if both the category and the target have one, and a category
that has none stays as it is. A category `x` without the variable, raised to a target `t` that may
have it, is `t|(t|x)` with the inner slash reversed and both slashes of the modality of raising; it
has the variable exactly if the target has, and on the side of its slash it takes `t|x` and
gives `t`. -/
theorem substitution_laws :
    (∀ c t u : Category, (c.substitute t).substitute u = c.substitute (t.substitute u)) ∧
      (∀ c t : Category, (c.substitute t).hasVariable = true ↔
        c.hasVariable = true ∧ t.hasVariable = true) ∧
      (∀ c t : Category, c.hasVariable = false → c.substitute t = c) ∧
      ∀ (x : Category) (d : Direction) (t : Category), x.hasVariable = false →
        typeRaise x d (some t) =
            functor t ⟨d, .raising⟩ (functor t ⟨d.inverse, .raising⟩ x) ∧
          ((typeRaise x d (some t)).hasVariable = false ↔ t.hasVariable = false) ∧
          applyToward d (typeRaise x d (some t)) (functor t ⟨d.inverse, .raising⟩ x) = some t := by
  refine ⟨substitute_substitute, fun c t => ?_, fun c t hc => substitute_of_closed t hc,
    fun x d t hx => ?_⟩
  · rw [hasVariable_substitute, Bool.and_eq_true]
  · rw [typeRaise_of_closed hx]
    refine ⟨rfl, ?_, applyToward_raiseTo x d t⟩
    rw [hasVariable_raiseTo, hx, Bool.or_false]

/-- A noun phrase raised to an open target, which is then closed. -/
theorem substitution_laws_openTarget :
    let t := backward var np
    (backward s np).hasVariable = false ∧ (backward s np).substitute t = backward s np ∧
      np.hasVariable = false ∧
      typeRaise np .backward (some t) =
        functor t ⟨.backward, .raising⟩ (functor t ⟨.forward, .raising⟩ np) ∧
      (typeRaise np .backward (some t)).hasVariable = true ∧
      backwardApply (functor t ⟨.forward, .raising⟩ np) (typeRaise np .backward (some t)) =
        some t ∧
      (typeRaise np .backward (some t)).substitute s =
        typeRaise np .backward (some (backward s np)) := by
  intro t
  obtain ⟨hcompose, hvariable, hclosed, hraise⟩ := substitution_laws
  have hverb : (backward s np).hasVariable = false := rfl
  have hnp : np.hasVariable = false := rfl
  obtain ⟨hshape, -, hgives⟩ := hraise np .backward t hnp
  refine ⟨hverb, hclosed _ t hverb, hnp, hshape, (hvariable _ t).mpr ⟨rfl, rfl⟩, hgives, ?_⟩
  exact hcompose (raiseTo np .backward var) t s

end Categorial

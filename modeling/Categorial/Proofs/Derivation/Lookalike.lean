import Categorial.Proofs.Category.RoundTrip
import Categorial.Proofs.Derivation.Conservation
import Categorial.Proofs.Grammar.Overlap

/-!
# Derivations that look alike

Printed derivations show how the parts are put together, the words, and the written forms of the
categories of leaves and steps. They do not show everything: the rule of a step need not be named,
and the neighbour against which a category is raised never is. `Lookalike` keeps of two derivations
just what is always shown. Among the licensed derivations this is enough as long as no category
contains the bare infinitive, which is written like another form: the categories say which rule was
followed, as two rules never agree on the outcome, and a neighbour is the category of the part
beside the raised one.

* `Licensed.hasBareInfinitive_eq_false`: without the bare infinitive in the lexicon there is none in
  the category of a derivation.
* `Licensed.eq_of_lookalike`: licensed derivations that look alike are equal.
-/

namespace Categorial

open Category

/-! ## The bare infinitive -/

namespace Category

theorem eq_of_render_eq {c c' : Category} (hc : c.hasBareInfinitive = false)
    (hc' : c'.hasBareInfinitive = false) (h : c.render = c'.render) : c = c' := by
  have hread := render_eq_iff.mp h
  rwa [asRead_eq_self_iff.mpr hc, asRead_eq_self_iff.mpr hc'] at hread

end Category

theorem hasBareInfinitive_of_schema {r : Rule} {x y c : Category} (h : Schema r x y c)
    (hx : x.hasBareInfinitive = false) (hy : y.hasBareInfinitive = false) :
    c.hasBareInfinitive = false := by
  cases h with
  | forwardCoordinate => simpa [modifier, hasBareInfinitive] using hy
  | backwardCoordinate => simpa [modifier, hasBareInfinitive] using hx
  | forwardApply | backwardApply | forwardCompose | backwardCompose | forwardCrossCompose
  | backwardCrossCompose =>
    simp only [hasBareInfinitive, Bool.or_eq_false_iff] at hx hy ⊢
    simp only [hx, hy, and_self]

theorem hasBareInfinitive_of_raising {x y c : Category} (h : RaisingSchema x y c)
    (hy : y.hasBareInfinitive = false) : c.hasBareInfinitive = false := by
  cases h with
  | intro =>
    simp only [hasBareInfinitive, Bool.or_eq_false_iff] at hy ⊢
    exact ⟨hy.1.1, hy.2⟩

namespace Derivation

variable {lexicon : LexicalEntries} {u v : List String} {d d' : Derivation} {c : Category}

theorem Licensed.hasBareInfinitive_eq_false
    (hlexicon : ∀ w, ∀ c ∈ lexicon w, c.hasBareInfinitive = false) (h : Licensed lexicon u d)
    (hc : d.category = some c) : c.hasBareInfinitive = false := by
  induction h using Licensed.induction generalizing c with
  | @leaf w e he =>
    obtain rfl := Option.some.inj hc
    exact hlexicon w _ he
  | parent _ _ hp ihl ihr =>
    obtain ⟨x, y, hx, hy, j, -, rfl⟩ := mem_parents_iff.mp hp
    rw [j.category_above hx hy] at hc
    cases j with
    | rule r => exact hasBareInfinitive_of_schema (combine_eq_some_iff.mp hc) (ihl hx) (ihr hy)
    | raising => exact hasBareInfinitive_of_raising (raise_compose_eq_some_iff.mp hc) (ihr hy)

/-! ## Looking alike -/

/-- Two derivations are put together in the same way, from the same words, and leaves and steps have
categories that are written alike. -/
inductive Lookalike : Derivation → Derivation → Prop
  | leaf {c c' : Category} (hc : c.render = c'.render) (w : Option String) :
      Lookalike (.leaf c w) (.leaf c' w)
  | raisedLeaf (x y x' y' : Category) : Lookalike (.raisedLeaf x y) (.raisedLeaf x' y')
  | raised (x y x' y' : Category) {child child' : Derivation} (hchild : Lookalike child child') :
      Lookalike (.raised x y child) (.raised x' y' child')
  | node {r r' : Rule} {left right left' right' : Derivation}
      (hc : renderCategory? (node r left right).category =
        renderCategory? (node r' left' right').category)
      (hleft : Lookalike left left') (hright : Lookalike right right') :
      Lookalike (.node r left right) (.node r' left' right')

theorem Lookalike.isRaised_eq (h : Lookalike d d') : d.isRaised = d'.isRaised := by
  cases h <;> rfl

/-- Two steps from the same parts follow the same rule if their outcomes are written alike. -/
theorem Licensed.rule_eq_of_render_eq
    (hlexicon : ∀ w, ∀ c ∈ lexicon w, c.hasBareInfinitive = false) {r r' : Rule}
    {left right : Derivation} (hd : Licensed lexicon u (.node r left right))
    (hd' : Licensed lexicon v (.node r' left right))
    (h : renderCategory? (Derivation.node r left right).category =
      renderCategory? (Derivation.node r' left right).category) : r = r' := by
  obtain ⟨c, hc⟩ := Option.isSome_iff_exists.mp hd.category_isSome
  obtain ⟨c', hc'⟩ := Option.isSome_iff_exists.mp hd'.category_isSome
  have hcategory : c = c' := by
    refine eq_of_render_eq (hd.hasBareInfinitive_eq_false hlexicon hc)
      (hd'.hasBareInfinitive_eq_false hlexicon hc') ?_
    rwa [hc, hc'] at h
  rw [category_node, Option.bind_eq_some_iff] at hc hc'
  obtain ⟨x, hx, hc⟩ := hc
  obtain ⟨x', hx', hc'⟩ := hc'
  obtain ⟨y, hy, hc⟩ := Option.bind_eq_some_iff.mp hc
  obtain ⟨y', hy', hc'⟩ := Option.bind_eq_some_iff.mp hc'
  obtain rfl := Option.some.inj (hx.symm.trans hx')
  obtain rfl := Option.some.inj (hy.symm.trans hy')
  exact eq_of_combine hc (hcategory ▸ hc')

/-- Over a lexicon without the bare infinitive, what a licensed derivation looks like determines
it. -/
theorem Licensed.eq_of_lookalike
    (hlexicon : ∀ w, ∀ c ∈ lexicon w, c.hasBareInfinitive = false) (hd : Licensed lexicon u d)
    (hd' : Licensed lexicon v d') (h : Lookalike d d') : d = d' := by
  induction hd generalizing v d' with
  | @leaf w c hc =>
    cases h with
    | leaf hrender =>
      cases hd' with
      | leaf hc' => rw [eq_of_render_eq (hlexicon w _ hc) (hlexicon w _ hc') hrender]
  | node hleft hright hx hy hrule hcombine ihl ihr =>
    have hd := Licensed.node hleft hright hx hy hrule hcombine
    cases h with
    | node hrender hl hr =>
      have hraised := hl.isRaised_eq
      rw [hleft.isRaised_eq_false] at hraised
      cases hd' with
      | node hleft' hright' hx' hy' hrule' hcombine' =>
        obtain rfl := ihl hleft' hl
        obtain rfl := ihr hright' hr
        rw [hd.rule_eq_of_render_eq hlexicon
          (.node hleft' hright' hx' hy' hrule' hcombine') hrender]
      | raised => cases hraised
  | raised hleft hright hx hy _ _ ihl ihr =>
    cases h with
    | node _ hl hr =>
      cases hd' with
      | node hleft' =>
        have hraised := hl.isRaised_eq
        rw [hleft'.isRaised_eq_false] at hraised
        cases hraised
      | raised hleft' hright' hx' hy' =>
        -- source and neighbour are the categories of the two parts
        cases hl with
        | raised _ _ _ _ hl =>
          obtain rfl := ihl hleft' hl
          obtain rfl := ihr hright' hr
          obtain rfl := Option.some.inj (hx.symm.trans hx')
          obtain rfl := Option.some.inj (hy.symm.trans hy')
          rfl

end Derivation

/-! ## A small lexicon -/

theorem verbAndNounPhrases_hasBareInfinitive (verb : String) :
    ∀ w, ∀ c ∈ verbAndNounPhrases verb w, c.hasBareInfinitive = false := by
  intro w
  unfold verbAndNounPhrases
  split <;> decide

theorem words_raisedSubject (subject verb : String) :
    (raisedSubject subject verb).words = [some subject, some verb] :=
  rfl

end Categorial

import Categorial.Grammar.Raising

/-!
# The rules as schemata

Which categories a rule takes and what it gives, as the rules are written in a grammar: one
constructor of `Schema` for each of them, with the slashes that it asks for. Application has a
second one, in which a coordinating category takes up a closed neighbour.

* `combine_eq_some_iff`: a rule gives a category exactly if this is an instance of its schema.
* `raiseAgainst_eq_some_iff`: when raising gives a category, and which.
* `raise_compose_eq_some_iff`: the same for raising a neighbour in order to compose it.
-/

namespace Categorial

open Category

/-- The instances of the rules that combine two neighbours. -/
inductive Schema : Rule → Category → Category → Category → Prop
  | forwardApply (x y : Category) (m : Modality) :
      Schema .forwardApply (functor x ⟨.forward, m⟩ y) y x
  | forwardCoordinate {c : Category} (hc : c.hasVariable = false) (m k : Modality) :
      Schema .forwardApply (functor (functor var ⟨.backward, k⟩ var) ⟨.forward, m⟩ var) c
        (c.modifier .backward)
  | backwardApply (x y : Category) (m : Modality) :
      Schema .backwardApply y (functor x ⟨.backward, m⟩ y) x
  | backwardCoordinate {c : Category} (hc : c.hasVariable = false) (m k : Modality) :
      Schema .backwardApply c (functor (functor var ⟨.forward, k⟩ var) ⟨.backward, m⟩ var)
        (c.modifier .forward)
  | forwardCompose {m k : Modality} (hm : m.isHarmonic = true) (hk : k.isHarmonic = true)
      (x y z : Category) :
      Schema .forwardCompose (functor x ⟨.forward, m⟩ y) (functor y ⟨.forward, k⟩ z)
        (functor x ⟨.forward, k⟩ z)
  | backwardCompose {m k : Modality} (hm : m.isHarmonic = true) (hk : k.isHarmonic = true)
      (x y z : Category) :
      Schema .backwardCompose (functor x ⟨.backward, m⟩ y) (functor y ⟨.backward, k⟩ z)
        (functor x ⟨.backward, m⟩ z)
  | forwardCrossCompose (x y z : Category) :
      Schema .forwardCrossCompose (functor x ⟨.forward, .permutationLimiting⟩ y)
        (functor y ⟨.backward, .permutationLimiting⟩ z)
        (functor x ⟨.backward, .permutationLimiting⟩ z)
  | backwardCrossCompose (x y z : Category) :
      Schema .backwardCrossCompose (functor y ⟨.forward, .permutationLimiting⟩ z)
        (functor x ⟨.backward, .permutationLimiting⟩ y)
        (functor x ⟨.forward, .permutationLimiting⟩ z)

theorem eq_of_isCoordinator {d : Direction} {c : Category} (h : c.isCoordinator d = true) :
    ∃ m k, c = functor (functor var ⟨d.inverse, k⟩ var) ⟨d, m⟩ var := by
  unfold isCoordinator at h
  split at h
  · next inner outer =>
    obtain ⟨di, k⟩ := inner
    obtain ⟨d', m⟩ := outer
    simp only [Bool.and_eq_true, decide_eq_true_eq] at h
    obtain ⟨rfl, rfl⟩ := h
    exact ⟨m, k, rfl⟩
  · cases h

/-- The two ways in which application gives a category. -/
theorem cases_of_apply {d : Direction} {r a y z c : Category} {e : Slash}
    (h : (if a = y then some r
      else if (functor r e a).isCoordinator d && !y.hasVariable then some z else none) = some c) :
    (a = y ∧ r = c) ∨ (∃ m k, functor r e a = functor (functor var ⟨d.inverse, k⟩ var) ⟨d, m⟩ var) ∧
      y.hasVariable = false ∧ z = c := by
  split at h
  · next ha => exact .inl ⟨ha, Option.some.inj h⟩
  · obtain ⟨hcoordinator, h⟩ := Option.ite_none_right_eq_some.mp h
    simp only [Bool.and_eq_true, Bool.not_eq_true'] at hcoordinator
    exact .inr ⟨eq_of_isCoordinator hcoordinator.1, hcoordinator.2, Option.some.inj h⟩

theorem schema_of_forwardApply {x y c : Category} (h : forwardApply x y = some c) :
    Schema .forwardApply x y c := by
  cases x with
  | var | atom => cases h
  | functor r d a =>
    obtain ⟨d, m⟩ := d
    rw [forwardApply] at h
    obtain ⟨hd, h⟩ := Option.ite_none_right_eq_some.mp h
    obtain rfl : d = .forward := hd
    rcases cases_of_apply h with ⟨rfl, rfl⟩ | ⟨⟨m', k, heq⟩, hy, rfl⟩
    · exact .forwardApply r a m
    · rw [heq]
      exact .forwardCoordinate hy m' k

theorem schema_of_backwardApply {x y c : Category} (h : backwardApply x y = some c) :
    Schema .backwardApply x y c := by
  cases y with
  | var | atom => cases h
  | functor r d a =>
    obtain ⟨d, m⟩ := d
    rw [backwardApply] at h
    obtain ⟨hd, h⟩ := Option.ite_none_right_eq_some.mp h
    obtain rfl : d = .backward := hd
    rcases cases_of_apply h with ⟨rfl, rfl⟩ | ⟨⟨m', k, heq⟩, hx, rfl⟩
    · exact .backwardApply r a m
    · rw [heq]
      exact .backwardCoordinate hx m' k

/-- Only functors can be composed. -/
theorem functors_of_compose {x y c : Category}
    (h : forwardCompose x y = some c ∨ backwardCompose x y = some c ∨
      forwardCrossCompose x y = some c ∨ backwardCrossCompose x y = some c) :
    ∃ r d m a s e k b, x = functor r ⟨d, m⟩ a ∧ y = functor s ⟨e, k⟩ b := by
  cases x with
  | var | atom => rcases h with h | h | h | h <;> cases h
  | functor r d a =>
    cases y with
    | var | atom => rcases h with h | h | h | h <;> cases h
    | functor s e b => exact ⟨r, d.1, d.2, a, s, e.1, e.2, b, rfl, rfl⟩

theorem schema_of_forwardCompose {x y c : Category} (h : forwardCompose x y = some c) :
    Schema .forwardCompose x y c := by
  obtain ⟨x, d, m, y, y', e, k, z, rfl, rfl⟩ := functors_of_compose (.inl h)
  simp only [forwardCompose, harmonic, Option.ite_none_right_eq_some, Bool.and_eq_true,
    decide_eq_true_eq, Option.some.injEq] at h
  obtain ⟨⟨⟨⟨rfl, rfl⟩, rfl⟩, hm, hk⟩, rfl⟩ := h
  exact .forwardCompose hm hk x y z

theorem schema_of_backwardCompose {x y c : Category} (h : backwardCompose x y = some c) :
    Schema .backwardCompose x y c := by
  obtain ⟨x, d, m, y, y', e, k, z, rfl, rfl⟩ := functors_of_compose (.inr (.inl h))
  simp only [backwardCompose, harmonic, Option.ite_none_right_eq_some, Bool.and_eq_true,
    decide_eq_true_eq, Option.some.injEq] at h
  obtain ⟨⟨⟨⟨rfl, rfl⟩, rfl⟩, hm, hk⟩, rfl⟩ := h
  exact .backwardCompose hm hk x y z

theorem schema_of_forwardCrossCompose {x y c : Category}
    (h : forwardCrossCompose x y = some c) : Schema .forwardCrossCompose x y c := by
  obtain ⟨x, d, m, y, y', e, k, z, rfl, rfl⟩ := functors_of_compose (.inr (.inr (.inl h)))
  simp only [forwardCrossCompose, crossing, Option.ite_none_right_eq_some, Bool.and_eq_true,
    decide_eq_true_eq, Option.some.injEq] at h
  obtain ⟨⟨⟨⟨rfl, rfl⟩, rfl⟩, rfl, rfl⟩, rfl⟩ := h
  exact .forwardCrossCompose x y z

theorem schema_of_backwardCrossCompose {x y c : Category}
    (h : backwardCrossCompose x y = some c) : Schema .backwardCrossCompose x y c := by
  obtain ⟨y', d, m, z, x, e, k, y, rfl, rfl⟩ := functors_of_compose (.inr (.inr (.inr h)))
  simp only [backwardCrossCompose, crossing, Option.ite_none_right_eq_some, Bool.and_eq_true,
    decide_eq_true_eq, Option.some.injEq] at h
  obtain ⟨⟨⟨⟨rfl, rfl⟩, rfl⟩, rfl, rfl⟩, rfl⟩ := h
  exact .backwardCrossCompose x y z

theorem combine_eq_some_iff {r : Rule} {x y c : Category} :
    combine r x y = some c ↔ Schema r x y c := by
  constructor
  · intro h
    cases r with
    | forwardApply => exact schema_of_forwardApply h
    | backwardApply => exact schema_of_backwardApply h
    | forwardCompose => exact schema_of_forwardCompose h
    | backwardCompose => exact schema_of_backwardCompose h
    | forwardCrossCompose => exact schema_of_forwardCrossCompose h
    | backwardCrossCompose => exact schema_of_backwardCrossCompose h
    | forwardTypeRaise | backwardTypeRaise => cases h
  · intro h
    cases h with
    | forwardApply x y m | backwardApply x y m => simp [combine, forwardApply, backwardApply]
    | forwardCoordinate hc m k =>
      have hne : var ≠ y := fun hvar => by simp [← hvar, hasVariable] at hc
      simp [combine, forwardApply, isCoordinator, Direction.inverse, hc, hne]
    | backwardCoordinate hc m k =>
      have hne : var ≠ x := fun hvar => by simp [← hvar, hasVariable] at hc
      simp [combine, backwardApply, isCoordinator, Direction.inverse, hc, hne]
    | forwardCompose hm hk x y z | backwardCompose hm hk x y z =>
      simp [combine, forwardCompose, backwardCompose, harmonic, hm, hk]
    | forwardCrossCompose x y z | backwardCrossCompose x y z =>
      simp [combine, forwardCrossCompose, backwardCrossCompose, crossing]

theorem raiseAgainst_eq_some_iff {x y z : Category} :
    raiseAgainst x y = some z ↔ ∃ a r d e w, x = atom a ∧
      y = functor (functor r d (atom a)) e w ∧
        z = functor r ⟨.forward, d.modality⟩ (functor r d (atom a)) := by
  constructor
  · intro h
    unfold raiseAgainst at h
    split at h
    · next a r d y' e w =>
      split at h
      · next hy =>
        cases h
        exact ⟨a, r, d, e, w, rfl, by rw [hy], by rw [hy]⟩
      · cases h
    · cases h
  · rintro ⟨a, r, d, e, w, rfl, rfl, rfl⟩
    simp [raiseAgainst]

/-- An atom that is raised to compose with its right neighbour, and what they leave. -/
inductive RaisingSchema : Category → Category → Category → Prop
  | intro {m k : Modality} (hm : m.isHarmonic = true) (hk : k.isHarmonic = true) (a : Atom)
      (d : Direction) (x z : Category) :
      RaisingSchema (atom a) (functor (functor x ⟨d, m⟩ (atom a)) ⟨.forward, k⟩ z)
        (functor x ⟨.forward, k⟩ z)

theorem raise_compose_eq_some_iff {x y c : Category} :
    ((raiseAgainst x y).bind fun z => forwardCompose z y) = some c ↔ RaisingSchema x y c := by
  constructor
  · intro h
    obtain ⟨v, hraise, hcompose⟩ := Option.bind_eq_some_iff.mp h
    obtain ⟨a, r, d, e, w, rfl, rfl, rfl⟩ := raiseAgainst_eq_some_iff.mp hraise
    cases schema_of_forwardCompose hcompose with
    | forwardCompose hm hk => exact .intro hm hk a d.direction r w
  · rintro ⟨hm, hk, a, d, x, z⟩
    simp [raiseAgainst, forwardCompose, harmonic, hm, hk]

end Categorial

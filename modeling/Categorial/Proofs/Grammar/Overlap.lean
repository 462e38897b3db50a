import Mathlib.Data.List.Pairwise
import Categorial.Derivation.Basic
import Categorial.Proofs.Grammar.Schema

/-!
# Overlapping rules

Two different rules can give a category for the same two neighbours in four ways only, which are the
constructors of `Overlap`: one rule applies a neighbour to the other and the other rule composes
them, or both cross. What the two rules give is then different. The remaining pairs of rules ask for
slashes on different sides, or for a category that is a part of itself. Coordination brings in no
overlap, since a coordinating category has the variable and its neighbour has not.

* `Schema.eq_or_overlap`: two rules with the same premises are equal or overlap.
* `pairwise_inferences`, `length_inferences_le`: no third rule overlaps with both rules of a pair.
* `eq_of_combine`: the premises and the conclusion determine the rule.
* `rules_overlap_in_pairs`: all this for the rules, and for the derivations that end with them.
-/

namespace Categorial

open Category

/-! ## Overlaps -/

/-- Two rules, the first one tried earlier, with premises that both of them take and what each of
them gives. -/
inductive Overlap : Rule → Rule → Category → Category → Category → Category → Prop
  | forwardApplyCross (x y : Category) :
      Overlap .forwardApply .backwardCrossCompose
        (functor x ⟨.forward, .permutationLimiting⟩ (functor y ⟨.backward, .permutationLimiting⟩ x))
        (functor y ⟨.backward, .permutationLimiting⟩ x)
        x
        (functor y ⟨.forward, .permutationLimiting⟩ (functor y ⟨.backward, .permutationLimiting⟩ x))
  | backwardApplyCompose {m k : Modality} (hm : m.isHarmonic = true) (hk : k.isHarmonic = true)
      (x y : Category) :
      Overlap .backwardApply .backwardCompose
        (functor x ⟨.backward, m⟩ y)
        (functor y ⟨.backward, k⟩ (functor x ⟨.backward, m⟩ y))
        y
        (functor x ⟨.backward, m⟩ (functor x ⟨.backward, m⟩ y))
  | backwardApplyCross (x y : Category) :
      Overlap .backwardApply .forwardCrossCompose
        (functor x ⟨.forward, .permutationLimiting⟩ y)
        (functor y ⟨.backward, .permutationLimiting⟩ (functor x ⟨.forward, .permutationLimiting⟩ y))
        y
        (functor x ⟨.backward, .permutationLimiting⟩ (functor x ⟨.forward, .permutationLimiting⟩ y))
  | cross (x y : Category) :
      Overlap .forwardCrossCompose .backwardCrossCompose
        (functor x ⟨.forward, .permutationLimiting⟩ y)
        (functor y ⟨.backward, .permutationLimiting⟩ x)
        (functor x ⟨.backward, .permutationLimiting⟩ x)
        (functor y ⟨.forward, .permutationLimiting⟩ y)

namespace Overlap

variable {r s : Rule} {x y c d : Category}

theorem schemas (h : Overlap r s x y c d) : Schema r x y c ∧ Schema s x y d := by
  cases h with
  | forwardApplyCross x y => exact ⟨.forwardApply _ _ _, .backwardCrossCompose _ _ _⟩
  | backwardApplyCompose hm hk x y => exact ⟨.backwardApply _ _ _, .backwardCompose hm hk _ _ _⟩
  | backwardApplyCross x y => exact ⟨.backwardApply _ _ _, .forwardCrossCompose _ _ _⟩
  | cross x y => exact ⟨.forwardCrossCompose _ _ _, .backwardCrossCompose _ _ _⟩

/-- The conclusions differ, by their sides or because one is a part of the other. -/
theorem conclusions_ne (h : Overlap r s x y c d) : c ≠ d := by
  intro hcd
  cases h <;> cases hcd

end Overlap

/-- The pairs of rules that overlap, in the order in which the rules are tried. -/
def Rule.overlaps : List (Rule × Rule) :=
  [(forwardApply, backwardCrossCompose), (backwardApply, backwardCompose),
    (backwardApply, forwardCrossCompose), (forwardCrossCompose, backwardCrossCompose)]

theorem mem_overlaps_iff {r s : Rule} :
    (r, s) ∈ Rule.overlaps ↔ ∃ x y c d, Overlap r s x y c d := by
  constructor
  · intro h
    simp only [Rule.overlaps, List.mem_cons, Prod.mk.injEq, List.not_mem_nil, or_false] at h
    rcases h with ⟨rfl, rfl⟩ | ⟨rfl, rfl⟩ | ⟨rfl, rfl⟩ | ⟨rfl, rfl⟩
    · exact ⟨_, _, _, _, .forwardApplyCross np s⟩
    · exact ⟨_, _, _, _, .backwardApplyCompose (m := .permissive) (k := .permissive) rfl rfl np s⟩
    · exact ⟨_, _, _, _, .backwardApplyCross np s⟩
    · exact ⟨_, _, _, _, .cross np s⟩
  · rintro ⟨x, y, c, d, h⟩
    cases h <;> decide

/-! ## No other overlap -/

namespace Schema

variable {r s : Rule} {x y c d : Category}

/-- No other rule takes a coordinating category and a closed right neighbour. -/
theorem eq_forwardApply {m k : Modality} (hy : y.hasVariable = false)
    (h : Schema r (functor (functor var ⟨.backward, k⟩ var) ⟨.forward, m⟩ var) y c) :
    r = .forwardApply := by
  cases h with
  | forwardApply | forwardCoordinate => rfl
  | _ => simp [hasVariable] at hy

theorem eq_backwardApply {m k : Modality} (hx : x.hasVariable = false)
    (h : Schema r x (functor (functor var ⟨.forward, k⟩ var) ⟨.backward, m⟩ var) c) :
    r = .backwardApply := by
  cases h with
  | backwardApply | backwardCoordinate => rfl
  | _ => simp [hasVariable] at hx

theorem eq_or_overlap (hr : Schema r x y c) (hs : Schema s x y d) :
    r = s ∨ Overlap r s x y c d ∨ Overlap s r x y d c := by
  -- where no case is listed, the slashes disagree or a category would be a part of itself
  cases hr with
  | forwardCoordinate hc => exact .inl (hs.eq_forwardApply hc).symm
  | backwardCoordinate hc => exact .inl (hs.eq_backwardApply hc).symm
  | forwardApply =>
    cases hs with
    | forwardApply | forwardCoordinate => exact .inl rfl
    | backwardCoordinate hc => simp [hasVariable] at hc
    | backwardCrossCompose => exact .inr (.inl (.forwardApplyCross _ _))
  | backwardApply =>
    cases hs with
    | backwardApply | backwardCoordinate => exact .inl rfl
    | forwardCoordinate hc => simp [hasVariable] at hc
    | backwardCompose hm hk => exact .inr (.inl (.backwardApplyCompose hm hk _ _))
    | forwardCrossCompose => exact .inr (.inl (.backwardApplyCross _ _))
  | forwardCompose =>
    cases hs with
    | forwardCompose => exact .inl rfl
    | forwardCoordinate hc => simp [hasVariable] at hc
  | backwardCompose hm hk =>
    cases hs with
    | backwardCompose => exact .inl rfl
    | backwardCoordinate hc => simp [hasVariable] at hc
    | backwardApply => exact .inr (.inr (.backwardApplyCompose hm hk _ _))
  | forwardCrossCompose =>
    cases hs with
    | forwardCrossCompose => exact .inl rfl
    | forwardCoordinate hc | backwardCoordinate hc => simp [hasVariable] at hc
    | backwardApply => exact .inr (.inr (.backwardApplyCross _ _))
    | backwardCrossCompose => exact .inr (.inl (.cross _ _))
  | backwardCrossCompose =>
    cases hs with
    | backwardCrossCompose => exact .inl rfl
    | forwardCoordinate hc | backwardCoordinate hc => simp [hasVariable] at hc
    | forwardApply => exact .inr (.inr (.forwardApplyCross _ _))
    | forwardCrossCompose => exact .inr (.inr (.cross _ _))

end Schema

/-! ## Inferences -/

variable {r s : Rule} {x y c d : Category}

theorem eq_or_mem_overlaps (hr : combine r x y = some c) (hs : combine s x y = some d) :
    r = s ∨ ((r, s) ∈ Rule.overlaps ∨ (s, r) ∈ Rule.overlaps) ∧ c ≠ d := by
  rcases (combine_eq_some_iff.mp hr).eq_or_overlap (combine_eq_some_iff.mp hs) with h | h | h
  · exact .inl h
  · exact .inr ⟨.inl (mem_overlaps_iff.mpr ⟨x, y, c, d, h⟩), h.conclusions_ne⟩
  · exact .inr ⟨.inr (mem_overlaps_iff.mpr ⟨x, y, d, c, h⟩), h.conclusions_ne.symm⟩

theorem exists_of_mem_overlaps (h : (r, s) ∈ Rule.overlaps) :
    r ≠ s ∧ ∃ x y, (combine r x y).isSome ∧ (combine s x y).isSome := by
  have hirrefl : ∀ p ∈ Rule.overlaps, p.1 ≠ p.2 := by decide
  obtain ⟨x, y, c, d, hoverlap⟩ := mem_overlaps_iff.mp h
  have hr := combine_eq_some_iff.mpr hoverlap.schemas.1
  have hs := combine_eq_some_iff.mpr hoverlap.schemas.2
  exact ⟨hirrefl _ h, x, y, by rw [hr]; rfl, by rw [hs]; rfl⟩

theorem eq_of_combine (hr : combine r x y = some c) (hs : combine s x y = some c) : r = s :=
  (eq_or_mem_overlaps hr hs).resolve_right fun h => h.2 rfl

theorem pairwise_inferences (x y : Category) :
    (inferences x y).Pairwise fun i j => (i.rule, j.rule) ∈ Rule.overlaps := by
  have horder : Rule.binary.Pairwise fun r s => r ≠ s ∧ (s, r) ∉ Rule.overlaps := by decide
  rw [inferences, inferencesBy, List.pairwise_filterMap]
  refine horder.imp ?_
  rintro r s ⟨hne, hreverse⟩ i hi j hj
  obtain ⟨c, hc, rfl⟩ := Option.map_eq_some_iff.mp hi
  obtain ⟨d, hd, rfl⟩ := Option.map_eq_some_iff.mp hj
  obtain ⟨h, -⟩ := (eq_or_mem_overlaps hc hd).resolve_left hne
  exact h.resolve_right hreverse

theorem length_inferences_le (x y : Category) : (inferences x y).length ≤ 2 := by
  have hpairs := pairwise_inferences x y
  match hfound : inferences x y with
  | [] | [_] | [_, _] => simp
  | i :: j :: k :: found =>
    -- the first and the third rule of a chain of overlaps do not overlap
    have hchain : ∀ p ∈ Rule.overlaps, ∀ q ∈ Rule.overlaps, p.2 = q.1 →
        (p.1, q.2) ∉ Rule.overlaps := by decide
    rw [hfound] at hpairs
    obtain ⟨hi, hrest⟩ := List.pairwise_cons.mp hpairs
    have hij := hi j (by simp)
    have hik := hi k (by simp)
    have hjk := (List.pairwise_cons.mp hrest).1 k (by simp)
    exact absurd hik (hchain _ hij _ hjk rfl)

open Categorial.Derivation in
/-- **Rules overlap in pairs.** Of the six rules at most two give a category for the same two
neighbours. The pairs of rules for which this happens are those of `Rule.overlaps`, each of which
does occur, and the two categories are different. So the category of a derivation and those of its
two parts determine the rule that it ends with. -/
theorem rules_overlap_in_pairs :
    (∀ x y, (inferences x y).length ≤ 2) ∧
      (∀ r s : Rule, (r ≠ s ∧ ∃ x y, (combine r x y).isSome ∧ (combine s x y).isSome) ↔
        (r, s) ∈ Rule.overlaps ∨ (s, r) ∈ Rule.overlaps) ∧
      (∀ (r s : Rule) (x y c d : Category), r ≠ s → combine r x y = some c →
        combine s x y = some d → c ≠ d) ∧
      ∀ (r s : Rule) (left right left' right' : Derivation) (c : Category),
        left.category = left'.category → right.category = right'.category →
          (node r left right).category = some c → (node s left' right').category = some c →
            r = s := by
  refine ⟨length_inferences_le, fun r s => ⟨?_, ?_⟩, ?_, ?_⟩
  · rintro ⟨hne, x, y, hr, hs⟩
    obtain ⟨c, hc⟩ := Option.isSome_iff_exists.mp hr
    obtain ⟨d, hd⟩ := Option.isSome_iff_exists.mp hs
    exact ((eq_or_mem_overlaps hc hd).resolve_left hne).1
  · rintro (h | h)
    · exact exists_of_mem_overlaps h
    · obtain ⟨hne, x, y, hs, hr⟩ := exists_of_mem_overlaps h
      exact ⟨hne.symm, x, y, hr, hs⟩
  · intro r s x y c d hne hr hs
    exact ((eq_or_mem_overlaps hr hs).resolve_left hne).2
  · intro r s left right left' right' c hleft hright hr hs
    rw [category_node, Option.bind_eq_some_iff] at hr hs
    obtain ⟨x, hx, hr⟩ := hr
    obtain ⟨x', hx', hs⟩ := hs
    obtain ⟨y, hy, hr⟩ := Option.bind_eq_some_iff.mp hr
    obtain ⟨y', hy', hs⟩ := Option.bind_eq_some_iff.mp hs
    obtain rfl : x = x' := Option.some.inj (hx.symm.trans (hleft.trans hx'))
    obtain rfl : y = y' := Option.some.inj (hy.symm.trans (hright.trans hy'))
    exact eq_of_combine hr hs

end Categorial

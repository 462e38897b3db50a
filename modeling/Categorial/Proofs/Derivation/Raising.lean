import Categorial.Proofs.Derivation.Licence
import Categorial.Proofs.Grammar.Cache
import Categorial.Proofs.Grammar.Composition

/-!
# Raising the left neighbour

An atom `Y` is raised to the left of `(X|Y)/Z`, over the result of this functor, so that the two
leave `X/Z`. It is the only way in which an atom on the left can be joined to a functor that looks
to the right, so the raised derivation is alone where there is one, and it does not matter that one
parser puts it last and the other one asks for it last. When `Z` is found, the outcome is that of
two applications, but the slash in `X|Y` is not looked at: if it points to the right, the atom fills
its slot from the wrong side, and no application does so.

* `category_raised_eq_some_iff`: when raising joins two neighbours, and what they leave.
* `parents_eq_of_raising`: the raised derivation is the only one above two others.
* `parents_raised_alone`: this with the deterministic choice, from any cache.
* `raising_rebrackets`: what raising does is done by application, if the slot is on the left.
-/

namespace Categorial

open Category

namespace Derivation

/-! ## When the left neighbour is raised -/

variable {x y z c : Category} {left right : Derivation}

/-- No rule joins an atom to a functor that looks to the right. -/
theorem combine_eq_none_of_raising (h : RaisingSchema x y c) (r : Rule) : combine r x y = none := by
  rw [Option.eq_none_iff_forall_ne_some]
  intro d hd
  cases h
  cases combine_eq_some_iff.mp hd

theorem parents_eq_of_raising (hx : left.category = some x) (hy : right.category = some y)
    (h : RaisingSchema x y c) :
    parents left right = [node .forwardCompose (raised x y left) right] := by
  have hnone : inferences x y = [] := by
    simp [inferences, inferencesBy, combine_eq_none_of_raising h]
  rw [parents, hx, hy]
  show parentsFrom (inferences x y) x y left right = _
  rw [hnone, parentsFrom, raisedParent?, raise_compose_eq_some_iff.mpr h]
  rfl

theorem category_raised_eq_some_iff (hx : left.category = some x) (hy : right.category = some y) :
    (node .forwardCompose (raised x y left) right).category = some c ↔ RaisingSchema x y c := by
  show (Join.raising.above x y left right).category = some c ↔ RaisingSchema x y c
  rw [Join.category_above _ hx hy]
  exact raise_compose_eq_some_iff

/-! ## The raised derivation is alone -/

/-- Whether the derivation is a raised category, with the derivation of its source or without. -/
def isRaisedCategory : Derivation → Bool
  | raised .. | raisedLeaf .. => true
  | _ => false

/-- A raised category over the left part comes from nowhere but raising. -/
theorem exists_of_raised_mem_parents {r : Rule} {e : Derivation}
    (hp : node r e right ∈ parents left right) (he : e ≠ left) :
    ∃ a x z d f g, left.category = some (atom a) ∧
      right.category = some (functor (functor x ⟨d, f⟩ (atom a)) ⟨.forward, g⟩ z) ∧
      f.isHarmonic ∧ g.isHarmonic := by
  obtain ⟨x, y, hx, hy, j, hj, habove⟩ := mem_parents_iff.mp hp
  cases j with
  | rule s => exact absurd (node.inj habove).2.1 he
  | raising =>
    obtain ⟨c, hc⟩ := Option.isSome_iff_exists.mp hj
    obtain ⟨hm, hk, a, d, x, z⟩ := raise_compose_eq_some_iff.mp hc
    exact ⟨a, x, z, d, _, _, hx, hy, hm, hk⟩

theorem raised_ne_child (x y : Category) (child : Derivation) : raised x y child ≠ child := by
  intro heq
  have hsize := congrArg sizeOf heq
  rw [raised.sizeOf_spec] at hsize
  omega

/-- **A raised derivation is alone.** The left one of two derivations is raised to compose with the
right one exactly if it is an atom `Y` and the right one `(X|Y)/Z`, where both slashes are harmonic;
and exactly then there is a derivation above the two with any raised category that is not the left
one itself. It is then the only one, no rule joins the two, and it leaves `X/Z`. So the first
derivation above two others, in the order of the rules and with raising at last, always heads the
list of all, also when the inferences come from a true cache; and every derivation in the list has a
category. -/
theorem parents_raised_alone (left right : Derivation) :
    ((∃ x y, node .forwardCompose (raised x y left) right ∈ parents left right) ↔
        ∃ a x z d f g, left.category = some (atom a) ∧
          right.category = some (functor (functor x ⟨d, f⟩ (atom a)) ⟨.forward, g⟩ z) ∧
          f.isHarmonic ∧ g.isHarmonic) ∧
      ((∃ p ∈ parents left right, ∃ r e, p = node r e right ∧ e.isRaisedCategory ∧ e ≠ left) ↔
        ∃ a x z d f g, left.category = some (atom a) ∧
          right.category = some (functor (functor x ⟨d, f⟩ (atom a)) ⟨.forward, g⟩ z) ∧
          f.isHarmonic ∧ g.isHarmonic) ∧
      (∀ a x z d f g, left.category = some (atom a) →
        right.category = some (functor (functor x ⟨d, f⟩ (atom a)) ⟨.forward, g⟩ z) →
        f.isHarmonic → g.isHarmonic → ∃ p, parents left right = [p] ∧
          p = node .forwardCompose (raised (atom a)
            (functor (functor x ⟨d, f⟩ (atom a)) ⟨.forward, g⟩ z) left) right ∧
          p.category = some (functor x ⟨.forward, g⟩ z) ∧
          ∀ r, combine r (atom a) (functor (functor x ⟨d, f⟩ (atom a)) ⟨.forward, g⟩ z) = none) ∧
      firstParent left right = (parents left right).head? ∧
      Cache.Gives (cachedParents left right) (parents left right) ∧
      Cache.Gives (cachedFirstParent left right) (parents left right).head? ∧
      ∀ p ∈ parents left right, p.category.isSome := by
  have hraised : ∀ {a x z d f g}, left.category = some (atom a) →
      right.category = some (functor (functor x ⟨d, f⟩ (atom a)) ⟨.forward, g⟩ z) →
      f.isHarmonic → g.isHarmonic → parents left right = [node .forwardCompose (raised (atom a)
        (functor (functor x ⟨d, f⟩ (atom a)) ⟨.forward, g⟩ z) left) right] :=
    fun hx hy hf hg => parents_eq_of_raising hx hy (.intro hf hg _ _ _ _)
  refine ⟨⟨?_, ?_⟩, ⟨?_, ?_⟩, ?_, firstParent_eq_head? left right, gives_cachedParents left right,
    firstParent_eq_head? left right ▸ gives_cachedFirstParent left right,
    fun p => category_of_mem_parents⟩
  · rintro ⟨x, y, hp⟩
    exact exists_of_raised_mem_parents hp (raised_ne_child x y left)
  · rintro ⟨a, x, z, d, f, g, hx, hy, hf, hg⟩
    rw [hraised hx hy hf hg]
    exact ⟨_, _, List.mem_singleton_self _⟩
  · rintro ⟨p, hp, r, e, rfl, -, he⟩
    exact exists_of_raised_mem_parents hp he
  · rintro ⟨a, x, z, d, f, g, hx, hy, hf, hg⟩
    rw [hraised hx hy hf hg]
    exact ⟨_, List.mem_singleton_self _, _, _, rfl, rfl, raised_ne_child _ _ left⟩
  · intro a x z d f g hx hy hf hg
    have h : RaisingSchema _ _ _ := .intro hf hg a d x z
    exact ⟨_, parents_eq_of_raising hx hy h, rfl, (category_raised_eq_some_iff hx hy).mpr h,
      combine_eq_none_of_raising h⟩

/-! ## Raising and application -/

/-- What the outcome of raising takes is taken by the right neighbour without raising, which leaves
a functor with the left neighbour as its argument, on either side. -/
theorem exists_slot_of_raising (h : RaisingSchema x y c) (hclosed : y.hasVariable = false)
    {w v : Category} (hv : forwardApply c w = some v) :
    ∃ s, forwardApply y w = some (functor v s x) ∧ (functor v s x).hasVariable = false := by
  cases h with
  | @intro m k hm hk a d r z =>
    have hslot : (functor r ⟨d, m⟩ (atom a)).hasVariable = false := by
      rw [hasVariable, Bool.or_eq_false_iff] at hclosed
      exact hclosed.1
    have hraised : (functor r ⟨.forward, m⟩ (functor r ⟨d, m⟩ (atom a))).hasVariable = false := by
      rw [hasVariable, Bool.or_eq_false_iff] at hslot ⊢
      exact ⟨hslot.1, by rw [hasVariable, hslot.1, hslot.2]; rfl⟩
    -- the outcome is composed, so it can be applied in two steps
    have hsteps := (applyToward_compose hraised hclosed k w).symm.trans hv
    obtain ⟨u, hu, huv⟩ := Option.bind_eq_some_iff.mp hsteps
    rw [applyToward_of_closed hraised] at huv
    obtain ⟨⟨-, rfl⟩, hrv⟩ := Option.ite_none_right_eq_some.mp huv
    obtain rfl := Option.some.inj hrv
    exact ⟨_, hu, hslot⟩

/-- **Raising does what application does, if the slot is on the left.** When the outcome of raising
takes the next constituent, the right neighbour takes it without raising and leaves a functor whose
argument is the left neighbour. If the slash of this functor points to the left, its application
gives the same category. If it points to the right, the left neighbour stands on the wrong side. -/
theorem raising_rebrackets {left right : Derivation} {x y : Category}
    (hx : left.category = some x) (hy : right.category = some y) (hclosed : y.hasVariable = false)
    (hp : node .forwardCompose (raised x y left) right ∈ parents left right) :
    ∃ q, (node .forwardCompose (raised x y left) right).category = some q ∧
      ∀ (next : Derivation) (z c : Category), next.category = some z → forwardApply q z = some c →
        ∃ s : Slash, forwardApply y z = some (functor c s x) ∧
          (s.direction = .backward → backwardApply x (functor c s x) = some c ∧
            (node .backwardApply left (node .forwardApply right next)).category = some c) ∧
          (s.direction = .forward → backwardApply x (functor c s x) = none ∧
            forwardApply (functor c s x) x = some c) := by
  obtain ⟨q, hq⟩ := Option.isSome_iff_exists.mp (category_of_mem_parents hp)
  have hraising := (category_raised_eq_some_iff hx hy).mp hq
  refine ⟨q, hq, fun next z c hz hc => ?_⟩
  obtain ⟨s, hslot, hslotClosed⟩ := exists_slot_of_raising hraising hclosed hc
  have happly := applyToward_of_closed hslotClosed
  refine ⟨s, hslot, fun hs => ?_, fun hs => ?_⟩
  · have hleft : backwardApply x (functor c s x) = some c :=
      (happly .backward x).trans (if_pos ⟨hs, rfl⟩)
    refine ⟨hleft, ?_⟩
    simp only [category_node, hx, hy, hz, Option.bind_some, combine, hslot]
    exact hleft
  · refine ⟨(happly .backward x).trans (if_neg fun h => ?_), ?_⟩
    · rw [hs] at h
      cases h.1
    · exact (happly .forward x).trans (if_pos ⟨hs, rfl⟩)

/-- A subject that is raised over its verb, and the same subject as the argument of the verb. -/
theorem raising_rebrackets_subject :
    let left : Derivation := .leaf np (some "we")
    let right : Derivation := .leaf (forward (backward s np) pp) (some "depend")
    let next : Derivation := .leaf pp (some "on-it")
    (forward (backward s np) pp).hasVariable = false ∧
      node .forwardCompose (raised np (forward (backward s np) pp) left) right ∈
        parents left right ∧
      forwardApply (forward s pp) pp = some s ∧
      backwardApply np (backward s np) = some s ∧
      (node .backwardApply left (node .forwardApply right next)).category = some s := by
  intro left right next
  have hclosed : (forward (backward s np) pp).hasVariable = false := rfl
  have hp : node .forwardCompose (raised np (forward (backward s np) pp) left) right ∈
      parents left right := by decide
  obtain ⟨q, hq, hall⟩ := raising_rebrackets rfl rfl hclosed hp
  obtain rfl : forward s pp = q := Option.some.inj hq
  have happly : forwardApply (forward s pp) pp = some s := by decide
  obtain ⟨t, ht, hbackward, -⟩ := hall next pp s rfl happly
  obtain rfl : Slash.mk .backward .permissive = t := by cases ht; rfl
  exact ⟨hclosed, hp, happly, hbackward rfl⟩

/-- A slot on the right is filled from the left by raising, and by no application. -/
theorem rightward_slot_raised :
    let left : Derivation := .leaf np (some "we")
    let right : Derivation := .leaf (forward (forward s np) pp) (some "depend")
    node .forwardCompose (raised np (forward (forward s np) pp) left) right ∈ parents left right ∧
      (node .forwardCompose (raised np (forward (forward s np) pp) left) right).category =
        some (forward s pp) ∧
      forwardApply (forward s pp) pp = some s ∧
      ¬ ∃ v, forwardApply (forward (forward s np) pp) pp = some v ∧
        backwardApply np v = some s := by
  refine ⟨by decide, by decide, by decide, ?_⟩
  rintro ⟨v, hv, hs⟩
  obtain rfl : forward s np = v := Option.some.inj hv
  cases hs

end Derivation

end Categorial

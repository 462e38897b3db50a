import Mathlib.Data.List.Nodup
import Categorial.Chart.Exhaustive

/-!
# Licensed derivations

What the grammar allows, said without any chart: a word with one of its categories is licensed, and
so are two licensed derivations joined by a binary rule or by raising the left one to compose with
the right one. The list of words that a derivation derives is part of the relation.

* `mem_parents_iff`: the derivations above two others are the ones joined from them.
* `Licensed.induction`: a property of all licensed derivations, from the words up.
* `Licensed.forall_mem_subtrees`: the same for all parts of a licensed derivation.
* `Licensed.words_eq`, `Licensed.category_of_mem_subtrees`: the leaves of a licensed derivation are
  its words, and every part of it has a category.
* `joined_of_mem_parents`: the two parts can be read off a derivation above them.
-/

namespace Categorial

namespace Derivation

/-! ## Joining two neighbours -/

/-- The ways of joining two neighbours: a binary rule, or composition with the left one raised. -/
inductive Join
  | rule (r : Rule)
  | raising
  deriving DecidableEq

namespace Join

/-- The category that the neighbours have together. -/
def outcome : Join → Category → Category → Option Category
  | rule r, x, y => combine r x y
  | raising, x, y => (raiseAgainst x y).bind fun z => forwardCompose z y

/-- The derivation above two others with the categories `x` and `y`. -/
def above : Join → Category → Category → Derivation → Derivation → Derivation
  | rule r, _, _, left, right => node r left right
  | raising, x, y, left, right => node .forwardCompose (raised x y left) right

theorem category_above (j : Join) {x y : Category} {left right : Derivation}
    (hx : left.category = some x) (hy : right.category = some y) :
    (j.above x y left right).category = j.outcome x y := by
  cases j with
  | rule r => simp only [above, category_node, hx, hy, Option.bind_some, outcome]
  | raising => simp only [above, category_node, category, hy, Option.bind_some, outcome, combine]

theorem above_inj {j : Join} {x y : Category} {left right left' right' : Derivation}
    (h : j.above x y left right = j.above x y left' right') : left = left' ∧ right = right' := by
  cases j with
  | rule r =>
    cases h
    exact ⟨rfl, rfl⟩
  | raising =>
    cases h
    exact ⟨rfl, rfl⟩

end Join

theorem mem_binary_of_combine {r : Rule} {x y : Category} (h : (combine r x y).isSome) :
    r ∈ Rule.binary := by
  rw [Rule.mem_binary_iff]
  cases r <;> first | rfl | simp [combine] at h

theorem mem_parentsFrom_iff {x y : Category} {left right p : Derivation} :
    p ∈ parentsFrom (inferences x y) x y left right ↔
      ∃ j : Join, (j.outcome x y).isSome ∧ p = j.above x y left right := by
  simp only [parentsFrom, List.mem_append, List.mem_map, Option.mem_toList, raisedParent?,
    Option.map_eq_some_iff, inferences, mem_inferencesBy]
  constructor
  · rintro (⟨i, ⟨_, hi⟩, rfl⟩ | ⟨z, hz, rfl⟩)
    · exact ⟨.rule i.rule, by simp [Join.outcome, hi], rfl⟩
    · exact ⟨.raising, by simp [Join.outcome, hz], rfl⟩
  · rintro ⟨j, hj, rfl⟩
    obtain ⟨c, hc⟩ := Option.isSome_iff_exists.mp hj
    cases j with
    | rule r => exact .inl ⟨⟨c, r⟩, ⟨mem_binary_of_combine hj, hc⟩, rfl⟩
    | raising => exact .inr ⟨c, hc, rfl⟩

theorem mem_parents_iff {left right p : Derivation} :
    p ∈ parents left right ↔
      ∃ x y, left.category = some x ∧ right.category = some y ∧
        ∃ j : Join, (j.outcome x y).isSome ∧ p = j.above x y left right := by
  unfold parents
  split
  · next x y hx hy => simp [hx, hy, mem_parentsFrom_iff]
  · next hnone =>
    simp only [List.not_mem_nil, false_iff]
    rintro ⟨x, y, hx, hy, -⟩
    exact hnone x y hx hy

theorem category_of_mem_parents {left right p : Derivation} (h : p ∈ parents left right) :
    p.category.isSome := by
  obtain ⟨x, y, hx, hy, j, hj, rfl⟩ := mem_parents_iff.mp h
  rw [j.category_above hx hy]
  exact hj

/-- The first derivation above two others is the one that the list of them starts with. -/
theorem firstParent_eq_head? (left right : Derivation) :
    firstParent left right = (parents left right).head? := by
  unfold firstParent parents
  split
  · next x y _ _ =>
    unfold firstParentFrom parentsFrom
    cases inferences x y with
    | nil => cases raisedParent? x y left right <;> rfl
    | cons i found => rfl
  · rfl

/-! ## The licence -/

/-- The words have the derivation, with the categories of the lexicon. -/
inductive Licensed (lexicon : LexicalEntries) : List String → Derivation → Prop
  | leaf {w : String} {c : Category} (hc : c ∈ lexicon w) :
      Licensed lexicon [w] (.leaf c (some w))
  | node {u v : List String} {left right : Derivation} {rule : Rule} {x y : Category}
      (hleft : Licensed lexicon u left) (hright : Licensed lexicon v right)
      (hx : left.category = some x) (hy : right.category = some y)
      (hrule : rule ∈ Rule.binary) (hcombine : (combine rule x y).isSome) :
      Licensed lexicon (u ++ v) (.node rule left right)
  | raised {u v : List String} {left right : Derivation} {x y z : Category}
      (hleft : Licensed lexicon u left) (hright : Licensed lexicon v right)
      (hx : left.category = some x) (hy : right.category = some y)
      (hraise : raiseAgainst x y = some z) (hcompose : (forwardCompose z y).isSome) :
      Licensed lexicon (u ++ v) (.node .forwardCompose (.raised x y left) right)

variable {lexicon : LexicalEntries}

theorem Licensed.of_mem_parents {u v : List String} {left right p : Derivation}
    (hleft : Licensed lexicon u left) (hright : Licensed lexicon v right)
    (hp : p ∈ parents left right) : Licensed lexicon (u ++ v) p := by
  obtain ⟨x, y, hx, hy, j, hj, rfl⟩ := mem_parents_iff.mp hp
  cases j with
  | rule r => exact .node hleft hright hx hy (mem_binary_of_combine hj) hj
  | raising =>
    obtain ⟨c, hc⟩ := Option.isSome_iff_exists.mp hj
    obtain ⟨z, hz, hzc⟩ := Option.bind_eq_some_iff.mp hc
    exact .raised hleft hright hx hy hz (by simp [hzc])

/-- Induction over licensed derivations in which both ways of joining are one case. -/
@[elab_as_elim]
theorem Licensed.induction
    {motive : (u : List String) → (d : Derivation) → Licensed lexicon u d → Prop}
    (leaf : ∀ {w c} (hc : c ∈ lexicon w), motive [w] (.leaf c (some w)) (.leaf hc))
    (parent : ∀ {u v left right p} (hleft : Licensed lexicon u left)
      (hright : Licensed lexicon v right) (hp : p ∈ parents left right),
      motive u left hleft → motive v right hright →
        motive (u ++ v) p (hleft.of_mem_parents hright hp))
    {u : List String} {d : Derivation} (h : Licensed lexicon u d) : motive u d h := by
  induction h with
  | leaf hc => exact leaf hc
  | @node u v left right rule x y hleft hright hx hy _ hcombine ihl ihr =>
    exact parent hleft hright (mem_parents_iff.mpr ⟨x, y, hx, hy, .rule rule, hcombine, rfl⟩)
      ihl ihr
  | @raised u v left right x y z hleft hright hx hy hraise hcompose ihl ihr =>
    refine parent hleft hright (mem_parents_iff.mpr ⟨x, y, hx, hy, .raising, ?_, rfl⟩) ihl ihr
    simpa only [Join.outcome, hraise, Option.bind_some] using hcompose

theorem Licensed.category_isSome {u : List String} {d : Derivation} (h : Licensed lexicon u d) :
    d.category.isSome := by
  induction h using Licensed.induction with
  | leaf _ => rfl
  | parent _ _ hp _ _ => exact category_of_mem_parents hp

theorem leaves_of_mem_parents {left right p : Derivation} (h : p ∈ parents left right) :
    p.leaves = left.leaves ++ right.leaves := by
  obtain ⟨x, y, -, -, j, -, rfl⟩ := mem_parents_iff.mp h
  cases j <;> rfl

theorem words_of_mem_parents {left right p : Derivation} (h : p ∈ parents left right) :
    p.words = left.words ++ right.words := by
  rw [words, leaves_of_mem_parents h, List.map_append, ← words, ← words]

theorem Licensed.words_eq {u : List String} {d : Derivation} (h : Licensed lexicon u d) :
    d.words = u.map some := by
  induction h using Licensed.induction with
  | leaf _ => rfl
  | parent _ _ hp ihl ihr => rw [words_of_mem_parents hp, ihl, ihr, List.map_append]

theorem Licensed.ne_nil {u : List String} {d : Derivation} (h : Licensed lexicon u d) :
    u ≠ [] := by
  rintro rfl
  have hwords := h.words_eq
  simp only [words, List.map_nil, List.map_eq_nil_iff] at hwords
  exact leaves_ne_nil d hwords

/-- A derivation derives one list of words only. -/
theorem Licensed.words_unique {u v : List String} {d : Derivation} (hu : Licensed lexicon u d)
    (hv : Licensed lexicon v d) : u = v :=
  List.map_injective_iff.mpr (fun _ _ h => Option.some.inj h) (hu.words_eq.symm.trans hv.words_eq)

/-! ## Parts -/

/-- The derivation itself and the derivations inside it. -/
def subtrees : Derivation → List Derivation
  | leaf c w => [leaf c w]
  | raisedLeaf x y => [raisedLeaf x y]
  | raised x y child => raised x y child :: child.subtrees
  | node r left right => node r left right :: (left.subtrees ++ right.subtrees)

theorem mem_subtrees_self (d : Derivation) : d ∈ d.subtrees := by
  cases d <;> exact List.mem_cons_self

/-- A property of every part of a licensed derivation, from the words up. A raised category is a
part as well, and comes with the composition for which it was raised. -/
theorem Licensed.forall_mem_subtrees {motive : Derivation → Prop} {u : List String}
    {d : Derivation} (h : Licensed lexicon u d)
    (leaf : ∀ {w c}, w ∈ u → c ∈ lexicon w → motive (.leaf c (some w)))
    (node : ∀ {left right rule x y}, motive left → motive right → left.category = some x →
      right.category = some y → (combine rule x y).isSome → motive (.node rule left right))
    (raised : ∀ {left right x y z}, motive left → motive right → left.category = some x →
      right.category = some y → raiseAgainst x y = some z → (forwardCompose z y).isSome →
      motive (.raised x y left) ∧ motive (.node .forwardCompose (.raised x y left) right)) :
    ∀ e ∈ d.subtrees, motive e := by
  induction h with
  | @leaf w c hc =>
    intro e he
    obtain rfl := List.mem_singleton.mp he
    exact leaf (List.mem_singleton_self w) hc
  | node hleft hright hx hy hrule hcombine ihl ihr =>
    have hl := ihl fun hw => leaf (List.mem_append_left _ hw)
    have hr := ihr fun hw => leaf (List.mem_append_right _ hw)
    intro e he
    rcases List.mem_cons.mp he with rfl | he
    · exact node (hl _ (mem_subtrees_self _)) (hr _ (mem_subtrees_self _)) hx hy hcombine
    · rcases List.mem_append.mp he with he | he
      · exact hl e he
      · exact hr e he
  | raised hleft hright hx hy hraise hcompose ihl ihr =>
    have hl := ihl fun hw => leaf (List.mem_append_left _ hw)
    have hr := ihr fun hw => leaf (List.mem_append_right _ hw)
    obtain ⟨hraised, hnode⟩ := raised (hl _ (mem_subtrees_self _)) (hr _ (mem_subtrees_self _))
      hx hy hraise hcompose
    intro e he
    rcases List.mem_cons.mp he with rfl | he
    · exact hnode
    · rcases List.mem_append.mp he with he | he
      · rcases List.mem_cons.mp he with rfl | he
        · exact hraised
        · exact hl e he
      · exact hr e he

theorem Licensed.category_of_mem_subtrees {u : List String} {d : Derivation}
    (h : Licensed lexicon u d) : ∀ e ∈ d.subtrees, e.category.isSome := by
  refine h.forall_mem_subtrees (fun _ _ => rfl) ?_ ?_
  · intro left right rule x y _ _ hx hy hcombine
    rwa [category_node, hx, hy]
  · intro left right x y z _ _ hx hy hraise hcompose
    refine ⟨by rw [category, hraise]; rfl, ?_⟩
    rwa [category_node, category, hraise, hy]

/-- Whether the derivation is a raised category above the derivation of its source. -/
def isRaised : Derivation → Bool
  | raised .. => true
  | _ => false

theorem Licensed.isRaised_eq_false {u : List String} {d : Derivation}
    (h : Licensed lexicon u d) : d.isRaised = false := by
  cases h <;> rfl

/-- The two neighbours that a derivation joins, if it ends in a join. -/
def joined? : Derivation → Option (Derivation × Derivation)
  | node _ (raised _ _ left) right => some (left, right)
  | node _ left right => some (left, right)
  | _ => none

theorem joined_of_mem_parents {left right p : Derivation} (hleft : left.isRaised = false)
    (h : p ∈ parents left right) : p.joined? = some (left, right) := by
  obtain ⟨x, y, -, -, j, -, rfl⟩ := mem_parents_iff.mp h
  cases j with
  | rule r => cases left <;> first | rfl | cases hleft
  | raising => rfl

theorem nodup_parents (left right : Derivation) : (parents left right).Nodup := by
  unfold parents
  split
  · next x y _ _ =>
    have hrules : ((inferences x y).map (·.rule)).Nodup := by
      have hsub : ((inferences x y).map (·.rule)).Sublist Rule.binary := by
        unfold inferences inferencesBy
        generalize Rule.binary = rules
        induction rules with
        | nil => simp
        | cons r rules ih =>
          cases hr : combine r x y with
          | none => simpa [hr] using ih.cons r
          | some c => simpa [hr] using ih.cons_cons r
      exact hsub.nodup (by decide)
    have hnodes : ((inferences x y).map fun i => node i.rule left right).Nodup := by
      have := hrules.map (f := fun r => node r left right) fun a b hab => (node.inj hab).1
      rwa [List.map_map] at this
    refine List.Nodup.append hnodes (by cases raisedParent? x y left right <;> simp) ?_
    intro p hp hraised
    obtain ⟨i, -, rfl⟩ := List.mem_map.mp hp
    obtain ⟨z, -, hz⟩ := Option.map_eq_some_iff.mp (Option.mem_toList.mp hraised)
    -- the left part of the one is the raised left part of the other
    obtain ⟨-, hleft, -⟩ := node.inj hz
    have hsize := congrArg sizeOf hleft
    rw [raised.sizeOf_spec] at hsize
    omega
  · exact List.nodup_nil

end Derivation

end Categorial

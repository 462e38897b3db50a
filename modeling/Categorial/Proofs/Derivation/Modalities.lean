import Categorial.Proofs.Chart.Filling
import Categorial.Proofs.Grammar.Schema

/-!
# Modalities in derivations

The slashes of a category that a rule gives are those of its premises, with their modalities, or
belong to a modifier, which is closed to composition. Raising uses the slashes of the neighbour. No
modality comes up in a derivation that is in none of its words, then, and since each rule asks for a
slash with a modality of its own, the lexicon decides which rules a derivation can contain.

* `mem_modalities_of_schema`, `mem_modalities_of_raise`: where the slashes of an outcome come from.
* `exists_permits_of_schema`: every rule finds a slash among its premises that permits it.
* `Licensed.marked`: both facts for all parts of a derivation.
* `modalities_gate_rules`: what the modalities of the lexicon rule out.
-/

namespace Categorial

open Category

/-! ## Slashes anywhere in a category -/

/-- The modalities of all slashes of a category, those inside of its arguments included. -/
def Category.modalities : Category → List Modality
  | functor r d x => d.modality :: (r.modalities ++ x.modalities)
  | _ => []

/-- Whether a slash with the modality may take part in a rule. Type raising is for the composition
that follows it. -/
def Modality.permits (m : Modality) : Rule → Bool
  | .forwardApply | .backwardApply => true
  | .forwardCompose | .backwardCompose => m.isHarmonic
  | .forwardCrossCompose | .backwardCrossCompose => m = .permutationLimiting
  | .forwardTypeRaise | .backwardTypeRaise => m.isHarmonic

theorem Category.mem_modalities_functor {r x : Category} {d : Slash} {m : Modality} :
    m ∈ (functor r d x).modalities ↔ m = d.modality ∨ m ∈ r.modalities ∨ m ∈ x.modalities := by
  rw [modalities, List.mem_cons, List.mem_append]

/-! ## The rules -/

/-- A rule makes no new slash but that of a modifier. -/
theorem mem_modalities_of_schema {r : Rule} {x y c : Category} (h : Schema r x y c)
    {m : Modality} (hm : m ∈ c.modalities) :
    m = .applicationOnly ∨ m ∈ x.modalities ∨ m ∈ y.modalities := by
  cases h with
  | forwardApply x y k => exact .inr (.inl (mem_modalities_functor.mpr (.inr (.inl hm))))
  | backwardApply x y k => exact .inr (.inr (mem_modalities_functor.mpr (.inr (.inl hm))))
  | forwardCoordinate hc m k =>
    rcases mem_modalities_functor.mp hm with hm | hm | hm
    · exact .inl hm
    · exact .inr (.inr hm)
    · exact .inr (.inr hm)
  | backwardCoordinate hc m k =>
    rcases mem_modalities_functor.mp hm with hm | hm | hm
    · exact .inl hm
    · exact .inr (.inl hm)
    · exact .inr (.inl hm)
  | forwardCompose | backwardCompose | forwardCrossCompose | backwardCrossCompose =>
    -- the outcome has the result of one premise, and slash and argument of the premises
    right
    simp only [mem_modalities_functor] at hm ⊢
    rcases hm with hm | hm | hm <;> simp only [hm, true_or, or_true]

theorem mem_modalities_of_raise {x y z : Category} (h : raiseAgainst x y = some z)
    {m : Modality} (hm : m ∈ z.modalities) : m ∈ y.modalities := by
  obtain ⟨a, r, d, e, w, rfl, rfl, rfl⟩ := raiseAgainst_eq_some_iff.mp h
  simp only [mem_modalities_functor] at hm ⊢
  rcases hm with hm | hm | hm
  · exact .inr (.inl (.inl hm))
  · exact .inr (.inl (.inr (.inl hm)))
  · exact .inr (.inl hm)

/-- A rule only applies by a slash that permits it. -/
theorem exists_permits_of_schema {r : Rule} {x y c : Category} (h : Schema r x y c) :
    ∃ m, (m ∈ x.modalities ∨ m ∈ y.modalities) ∧ m.permits r = true := by
  cases h with
  | forwardApply x y k | forwardCoordinate hc k | forwardCrossCompose | backwardCrossCompose =>
    exact ⟨_, .inl List.mem_cons_self, rfl⟩
  | backwardApply x y k | backwardCoordinate hc k => exact ⟨_, .inr List.mem_cons_self, rfl⟩
  | forwardCompose hm | backwardCompose hm => exact ⟨_, .inl List.mem_cons_self, hm⟩

/-! ## The parts of a derivation -/

namespace Derivation

/-- The rule by which a derivation ends. -/
def lastRule? : Derivation → Option Rule
  | leaf .. => none
  | raisedLeaf .. | raised .. => some .forwardTypeRaise
  | node r _ _ => some r

/-- The derivation has a category, all slashes of which are of the given modalities, and one of
these permits its last step. -/
structure Marked (P : Modality → Prop) (d : Derivation) : Prop where
  category : ∃ c, d.category = some c ∧ ∀ m ∈ c.modalities, P m
  permitted : ∀ r, d.lastRule? = some r → ∃ m, P m ∧ m.permits r = true

variable {P : Modality → Prop} {left right : Derivation} {x y : Category}

theorem Marked.of_category (h : left.Marked P) (hx : left.category = some x) :
    ∀ m ∈ x.modalities, P m := by
  obtain ⟨c, hc, hall⟩ := h.category
  obtain rfl := Option.some.inj (hc.symm.trans hx)
  exact hall

theorem Marked.leaf {c : Category} (hc : ∀ m ∈ c.modalities, P m) (w : Option String) :
    (Derivation.leaf c w).Marked P :=
  ⟨⟨c, rfl, hc⟩, fun r hr => by cases hr⟩

theorem Marked.node (hclosed : P .applicationOnly) (hleft : left.Marked P)
    (hright : right.Marked P) (hx : left.category = some x) (hy : right.category = some y)
    {rule : Rule} (hcombine : (combine rule x y).isSome) :
    (Derivation.node rule left right).Marked P := by
  obtain ⟨c, hc⟩ := Option.isSome_iff_exists.mp hcombine
  have hschema := combine_eq_some_iff.mp hc
  have hpremise : ∀ {m}, m ∈ x.modalities ∨ m ∈ y.modalities → P m :=
    fun hm => hm.elim (hleft.of_category hx _) (hright.of_category hy _)
  refine ⟨⟨c, by rw [category_node, hx, hy]; exact hc, fun m hm => ?_⟩, fun r hr => ?_⟩
  · rcases mem_modalities_of_schema hschema hm with rfl | hm
    · exact hclosed
    · exact hpremise hm
  · obtain rfl := Option.some.inj hr
    obtain ⟨m, hm, hpermits⟩ := exists_permits_of_schema hschema
    exact ⟨m, hpremise hm, hpermits⟩

/-- The raised category composes with the neighbour by the slash that it takes over. -/
theorem Marked.raised (hright : right.Marked P) (hy : right.category = some y) {z : Category}
    (hraise : raiseAgainst x y = some z) (hcompose : (forwardCompose z y).isSome) :
    (Derivation.raised x y left).Marked P := by
  obtain ⟨c, hc⟩ := Option.isSome_iff_exists.mp hcompose
  have hall : ∀ m ∈ z.modalities, P m :=
    fun m hm => hright.of_category hy m (mem_modalities_of_raise hraise hm)
  refine ⟨⟨z, hraise, hall⟩, fun r hr => ?_⟩
  obtain rfl := Option.some.inj hr
  obtain ⟨m, hm, hpermits⟩ := exists_permits_of_schema (schema_of_forwardCompose hc)
  exact ⟨m, hm.elim (hall m) (hright.of_category hy m), hpermits⟩

variable {lexicon : LexicalEntries}

theorem Licensed.marked {u : List String} {d : Derivation} (h : Licensed lexicon u d)
    (hclosed : P .applicationOnly)
    (hlexicon : ∀ w ∈ u, ∀ c ∈ lexicon w, ∀ m ∈ c.modalities, P m) :
    ∀ e ∈ d.subtrees, e.Marked P := by
  refine h.forall_mem_subtrees (fun hw hc => .leaf (hlexicon _ hw _ hc) _) ?_ ?_
  · intro left right rule x y hleft hright hx hy hcombine
    exact .node hclosed hleft hright hx hy hcombine
  · intro left right x y z hleft hright hx hy hraise hcompose
    have hraised : (Derivation.raised x y left).Marked P := hright.raised hy hraise hcompose
    exact ⟨hraised, .node hclosed hraised hright hraise hy hcompose⟩

/-- A rule that no slash of the words permits is used nowhere in a derivation. -/
theorem Licensed.lastRule?_ne {u : List String} {d : Derivation} (h : Licensed lexicon u d)
    {r : Rule} (hclosed : Modality.permits .applicationOnly r = false)
    (hlexicon : ∀ w ∈ u, ∀ c ∈ lexicon w, ∀ m ∈ c.modalities, m.permits r = false) :
    ∀ e ∈ d.subtrees, e.lastRule? ≠ some r := by
  intro e he hr
  obtain ⟨m, hnot, hpermits⟩ := (h.marked hclosed hlexicon e he).permitted r hr
  rw [hnot] at hpermits
  cases hpermits

end Derivation

open Categorial.Derivation

/-- **Modalities gate the rules.** In a derivation that is found for a sentence, each part has a
category, and each slash in this category has the modality of a modifier or one that is on some
slash in the lexicon. So if no slash in the lexicon is harmonic, nothing is composed harmonically
and nothing is raised, and if none is permutation limiting, nothing is composed crosswise. -/
theorem modalities_gate_rules {lexicon : LexicalEntries} {words : List String} {d : Derivation}
    (hd : d ∈ parse lexicon words) :
    (∀ e ∈ d.subtrees, ∃ c, e.category = some c ∧ ∀ m ∈ c.modalities,
        m = .applicationOnly ∨ ∃ w ∈ words, ∃ l ∈ lexicon w, m ∈ l.modalities) ∧
      ((∀ w ∈ words, ∀ l ∈ lexicon w, ∀ m ∈ l.modalities, m.isHarmonic = false) →
        ∀ e ∈ d.subtrees, e.lastRule? ≠ some .forwardCompose ∧
          e.lastRule? ≠ some .backwardCompose ∧ e.lastRule? ≠ some .forwardTypeRaise) ∧
      ((∀ w ∈ words, ∀ l ∈ lexicon w, ∀ m ∈ l.modalities, m ≠ .permutationLimiting) →
        ∀ e ∈ d.subtrees, e.lastRule? ≠ some .forwardCrossCompose ∧
          e.lastRule? ≠ some .backwardCrossCompose) := by
  have hlicensed := mem_parse_iff.mp hd
  refine ⟨fun e he => ?_, fun hlexicon e he => ?_, fun hlexicon e he => ?_⟩
  · refine (hlicensed.marked (.inl rfl) ?_ e he).category
    exact fun w hw l hl m hm => .inr ⟨w, hw, l, hl, hm⟩
  · exact ⟨hlicensed.lastRule?_ne (r := .forwardCompose) rfl hlexicon e he,
      hlicensed.lastRule?_ne (r := .backwardCompose) rfl hlexicon e he,
      hlicensed.lastRule?_ne (r := .forwardTypeRaise) rfl hlexicon e he⟩
  · have hlimiting : ∀ w ∈ words, ∀ l ∈ lexicon w, ∀ m ∈ l.modalities,
        decide (m = .permutationLimiting) = false :=
      fun w hw l hl m hm => decide_eq_false (hlexicon w hw l hl m hm)
    exact ⟨hlicensed.lastRule?_ne (r := .forwardCrossCompose) rfl hlimiting e he,
      hlicensed.lastRule?_ne (r := .backwardCrossCompose) rfl hlimiting e he⟩

/-- The lexicon of a coordinator without composition, in which every other word is a noun phrase. -/
def coordinatorAndNounPhrases (coordinator : String) : LexicalEntries := fun w =>
  if w = coordinator then [functor (var.modifier .backward) ⟨.forward, .applicationOnly⟩ var]
  else [np]

/-- Two coordinated noun phrases: the coordinator becomes a modifier that is not in the lexicon. -/
theorem modalities_gate_rules_coordination :
    let d : Derivation := .node .backwardApply (.leaf np (some "they")) (.node .forwardApply
      (.leaf (functor (var.modifier .backward) ⟨.forward, .applicationOnly⟩ var) (some "and"))
      (.leaf np (some "us")))
    d ∈ parse (coordinatorAndNounPhrases "and") ["they", "and", "us"] ∧
      (∀ e ∈ d.subtrees, ∃ c, e.category = some c ∧ ∀ m ∈ c.modalities, m = .applicationOnly) ∧
      ∀ e ∈ d.subtrees, e.lastRule? ≠ some .forwardCompose ∧
        e.lastRule? ≠ some .forwardCrossCompose := by
  intro d
  have hnp : ∀ w, w ≠ "and" → np ∈ coordinatorAndNounPhrases "and" w := by
    intro w hw
    simp [coordinatorAndNounPhrases, hw]
  have hlexicon : ∀ w, ∀ l ∈ coordinatorAndNounPhrases "and" w, ∀ m ∈ l.modalities,
      m = .applicationOnly := by
    intro w
    unfold coordinatorAndNounPhrases
    split <;> decide
  have hlicensed : Licensed (coordinatorAndNounPhrases "and")
      (["they"] ++ (["and"] ++ ["us"])) d :=
    .node (.leaf (hnp _ (by decide))) (.node (.leaf List.mem_cons_self)
      (.leaf (hnp _ (by decide))) rfl rfl (by decide) rfl) rfl rfl (by decide) rfl
  have hd := mem_parse_iff.mpr hlicensed
  obtain ⟨hslashes, hharmonic, hcrossing⟩ := modalities_gate_rules hd
  refine ⟨hd, fun e he => ?_, fun e he => ⟨?_, ?_⟩⟩
  · obtain ⟨c, hc, hall⟩ := hslashes e he
    refine ⟨c, hc, fun m hm => (hall m hm).elim id ?_⟩
    rintro ⟨w, -, l, hl, hml⟩
    exact hlexicon w l hl m hml
  · exact (hharmonic (fun w _ l hl m hm => by rw [hlexicon w l hl m hm]; rfl) e he).1
  · exact (hcrossing (fun w _ l hl m hm => by rw [hlexicon w l hl m hm]; decide) e he).1

end Categorial

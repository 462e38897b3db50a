import Mathlib.Data.List.Forall2
import Mathlib.Data.Option.Basic
import Categorial.Export.Record
import Categorial.Proofs.Derivation.Lookalike

/-!
# Records tell derivations apart

Two JSON values are the same if they differ at most in the order in which the members of an object
are written (`Json.Same`). What the object of a derivation has under a name is the same in all four
kinds of derivations, as far as there is something: its category, its source, its word, its parts.
The number of parts and the presence of a source tell the kinds apart, so two records are the same
only for derivations that look alike. The neighbour of a raised part is not in the record, and of
the rule it has a short name alone; over a lexicon without the bare infinitive both come from the
grammar.

* `asRead_eq_of_components_same`: the components of a category keep what its written form keeps.
* `lookalike_of_record_same`: records that are the same come from derivations that look alike.
* `record_injective`: in the chart, they come from equal derivations.
-/

namespace Categorial

/-! ## Values up to the order of members -/

/-- The same value, whatever the order of the members of its objects. -/
inductive Json.Same : Json → Json → Prop
  | null : Same .null .null
  | bool (b : Bool) : Same (.bool b) (.bool b)
  | number (text : String) : Same (.number text) (.number text)
  | string (text : String) : Same (.string text) (.string text)
  | array {xs ys : List Json} (h : List.Forall₂ Same xs ys) : Same (.array xs) (.array ys)
  | object {ms ns : List (String × Json)}
      (h : ∀ name, Option.Rel Same (ms.lookup name) (ns.lookup name)) :
      Same (.object ms) (.object ns)

namespace Json.Same

variable {s t : String} {xs ys : List Json} {ms ns : List (String × Json)}

theorem sizeOf_lt_of_lookup {name : String} {v : Json} (h : ms.lookup name = some v) :
    sizeOf v < sizeOf ms := by
  obtain ⟨front, rest, rfl, -⟩ := List.lookup_eq_some_iff.mp h
  have hmem := List.sizeOf_lt_of_mem
    (List.mem_append_right front (List.mem_cons_self (a := (name, v)) (l := rest)))
  have hpair : sizeOf (name, v) = 1 + sizeOf name + sizeOf v := rfl
  omega

protected theorem refl : (v : Json) → v.Same v
  | .null => .null
  | .bool b => .bool b
  | .number text => .number text
  | .string text => .string text
  | .array xs => .array (List.forall₂_same.mpr fun x _ => Same.refl x)
  | .object ms => .object fun name =>
    match h : ms.lookup name with
    | none => .none
    | some v =>
      have := sizeOf_lt_of_lookup h
      .some (Same.refl v)

theorem string_eq (h : Same (.string s) (.string t)) : s = t := by
  cases h
  rfl

theorem items (h : Same (.array xs) (.array ys)) : List.Forall₂ Same xs ys := by
  cases h with
  | array h => exact h

theorem member (h : Same (.object ms) (.object ns)) (name : String) :
    Option.Rel Same (ms.lookup name) (ns.lookup name) := by
  cases h with
  | object h => exact h name

theorem member_eq {v w : Json} (h : Same (.object ms) (.object ns)) (name : String)
    (hms : ms.lookup name = some v) (hns : ns.lookup name = some w) : Same v w := by
  have := h.member name
  rwa [hms, hns, Option.rel_some_some] at this

end Json.Same

/-! ## Categories -/

theorem Direction.eq_of_symbol_eq {e e' : Direction} (h : e.symbol = e'.symbol) : e = e' := by
  cases e <;> cases e' <;> first | rfl | exact absurd h (by decide)

theorem Modality.eq_of_name_eq {m m' : Modality} (h : m.name = m'.name) : m = m' := by
  cases m <;> cases m' <;> first | rfl | exact absurd h (by decide)

theorem Primitive.eq_of_symbol_eq {b b' : Primitive} (h : b.symbol = b'.symbol) : b = b' := by
  cases b <;> cases b' <;> first | rfl | exact absurd h (by decide)

theorem ClauseForm.asRead_eq_of_symbol_eq {f f' : ClauseForm} (h : f.symbol = f'.symbol) :
    f.asRead = f'.asRead := by
  rw [← symbol_asRead, ← symbol_asRead f'] at h
  have hread := Notation.ofSymbol?_symbol f.asRead_ne
  rw [h, Notation.ofSymbol?_symbol f'.asRead_ne] at hread
  exact (Option.some.inj hread).symm

namespace Export

open Categorial.Derivation

/-- A text that may be missing. -/
def textOrNull (text : Option String) : Json :=
  (text.map Json.string).getD .null

theorem textOrNull_eq {t t' : Option String} (h : (textOrNull t).Same (textOrNull t')) :
    t = t' := by
  cases t with
  | none =>
    cases t' with
    | none => rfl
    | some => cases h
  | some t =>
    cases t' with
    | none => cases h
    | some t' => rw [h.string_eq]

theorem asRead_eq_of_components_same {c c' : Category}
    (h : (components c).Same (components c')) : c.asRead = c'.asRead := by
  induction c generalizing c' with
  | var =>
    cases c' with
    | var => rfl
    | atom | functor => cases h.member "variable"
  | atom a =>
    cases c' with
    | var | functor => cases h.member "base"
    | atom a' =>
      have hform : (a.form?.map ClauseForm.symbol) = a'.form?.map ClauseForm.symbol := by
        refine textOrNull_eq ?_
        rw [textOrNull, textOrNull, Option.map_map, Option.map_map]
        exact h.member_eq "feature" rfl rfl
      have hbase := Primitive.eq_of_symbol_eq (h.member_eq "base" rfl rfl).string_eq
      cases a with
      | bare b =>
        cases a' with
        | bare b' => rw [show b = b' from hbase]
        | clause f' => cases hform
      | clause f =>
        cases a' with
        | bare b' => cases hform
        | clause f' =>
          have hread := ClauseForm.asRead_eq_of_symbol_eq (Option.some.inj hform)
          simp only [Category.asRead, Atom.asRead, hread]
  | functor r d x ihr ihx =>
    cases c' with
    | var | atom => cases h.member "direction"
    | functor r' d' x' =>
      obtain ⟨e, m⟩ := d
      obtain ⟨e', m'⟩ := d'
      obtain rfl := Direction.eq_of_symbol_eq (h.member_eq "direction" rfl rfl).string_eq
      obtain rfl := Modality.eq_of_name_eq (h.member_eq "feature" rfl rfl).string_eq
      have hr := ihr (h.member_eq "result" rfl rfl)
      have hx := ihx (h.member_eq "argument" rfl rfl)
      simp only [Category.asRead, hr, hx]

theorem render_eq_of_categoryRecord_same {full : Bool} {c c' : Category}
    (h : (categoryRecord full c).Same (categoryRecord full c')) : c.render = c'.render := by
  cases full with
  | false => exact h.string_eq
  | true => exact Category.render_eq_iff.mpr (asRead_eq_of_components_same h)

/-! ## Members -/

theorem lookup_cat (full : Bool) (d : Derivation) :
    (recordMembers full d).lookup "cat" =
      some ((d.category.map (categoryRecord full)).getD .null) := by
  cases d <;> rfl

theorem lookup_word (full : Bool) {d : Derivation} (h : d.children = []) :
    (recordMembers full d).lookup "word" = some (textOrNull d.token) := by
  cases d with
  | leaf | raisedLeaf => rfl
  | raised | node => cases h

theorem lookup_children (full : Bool) (d : Derivation) :
    (recordMembers full d).lookup "children" =
      if d.isLeaf then none else some (.array (d.children.map (record full))) := by
  cases d <;> rfl

theorem renderCategory?_eq_of_record_same {full : Bool} {d d' : Derivation}
    (h : (record full d).Same (record full d')) :
    renderCategory? d.category = renderCategory? d'.category := by
  have hcat := h.member_eq "cat" (lookup_cat full d) (lookup_cat full d')
  cases hc : d.category with
  | none =>
    cases hc' : d'.category with
    | none => rfl
    | some c' =>
      rw [hc, hc'] at hcat
      cases full <;> cases c' <;> cases hcat
  | some c =>
    cases hc' : d'.category with
    | none =>
      rw [hc, hc'] at hcat
      cases full <;> cases c <;> cases hcat
    | some c' =>
      rw [hc, hc'] at hcat
      exact render_eq_of_categoryRecord_same hcat

theorem children_of_record_same {full : Bool} {d d' : Derivation}
    (h : (record full d).Same (record full d')) :
    List.Forall₂ (fun e e' => (record full e).Same (record full e')) d.children d'.children := by
  have hchildren := h.member "children"
  rw [lookup_children, lookup_children] at hchildren
  cases hd : d.isLeaf with
  | true =>
    cases hd' : d'.isLeaf with
    | true =>
      rw [List.isEmpty_iff.mp hd, List.isEmpty_iff.mp hd']
      exact .nil
    | false =>
      rw [hd, hd'] at hchildren
      cases hchildren
  | false =>
    cases hd' : d'.isLeaf with
    | true =>
      rw [hd, hd'] at hchildren
      cases hchildren
    | false =>
      rw [hd, hd'] at hchildren
      have hitems := (Option.rel_some_some.mp hchildren).items
      rwa [List.forall₂_map_left_iff, List.forall₂_map_right_iff] at hitems

theorem token_eq_of_record_same {full : Bool} {d d' : Derivation} (hd : d.children = [])
    (hd' : d'.children = []) (h : (record full d).Same (record full d')) : d.token = d'.token :=
  textOrNull_eq (h.member_eq "word" (lookup_word full hd) (lookup_word full hd'))

/-- Records that are the same come from derivations that look alike. The parts are as many as those
of the other, and among the leaves only the raised ones have a source. -/
theorem lookalike_of_record_same {full : Bool} {d d' : Derivation}
    (h : (record full d).Same (record full d')) : Lookalike d d' := by
  induction d generalizing d' with
  | leaf c w =>
    cases d' with
    | leaf c' w' =>
      obtain rfl : w = w' := token_eq_of_record_same rfl rfl h
      exact .leaf (renderCategory?_eq_of_record_same h) w
    | raisedLeaf => cases h.member "source"
    | raised | node => cases children_of_record_same h
  | raisedLeaf x y =>
    cases d' with
    | leaf => cases h.member "source"
    | raisedLeaf x' y' => exact .raisedLeaf x y x' y'
    | raised | node => cases children_of_record_same h
  | raised x y child ih =>
    have hchildren := children_of_record_same h
    cases d' with
    | leaf | raisedLeaf => cases hchildren
    | raised x' y' child' =>
      obtain ⟨hchild, -⟩ := List.forall₂_cons.mp hchildren
      exact .raised x y x' y' (ih hchild)
    | node => cases (List.forall₂_cons.mp hchildren).2
  | node r left right ihl ihr =>
    have hchildren := children_of_record_same h
    cases d' with
    | leaf | raisedLeaf => cases hchildren
    | raised => cases (List.forall₂_cons.mp hchildren).2
    | node r' left' right' =>
      obtain ⟨hleft, hparts⟩ := List.forall₂_cons.mp hchildren
      obtain ⟨hright, -⟩ := List.forall₂_cons.mp hparts
      exact .node (renderCategory?_eq_of_record_same h) (ihl hleft) (ihr hright)

/-! ## The chart -/

/-- **Records lose nothing.** Over a lexicon without the bare infinitive, two derivations from cells
of charts, perhaps of different sentences, are equal as soon as their records are the same, whether
categories are written out in them or taken apart. -/
theorem record_injective {lexicon : LexicalEntries}
    (hlexicon : ∀ w, ∀ c ∈ lexicon w, c.hasBareInfinitive = false) {words words' : List String}
    {span span' : Span} {d d' : Derivation}
    (hd : d ∈ (Chart.ofSentence lexicon words).cell span)
    (hd' : d' ∈ (Chart.ofSentence lexicon words').cell span') (full : Bool) :
    (record full d).Same (record full d') ↔ d = d' := by
  constructor
  · intro h
    exact (Chart.licensed_of_mem_cell hd).eq_of_lookalike hlexicon
      (Chart.licensed_of_mem_cell hd') (lookalike_of_record_same h)
  · rintro rfl
    exact Json.Same.refl _

theorem record_injective_raisedSubject :
    (∀ w, ∀ c ∈ verbAndNounPhrases "saw" w, c.hasBareInfinitive = false) ∧
      raisedSubject "they" "saw" ∈
        (Chart.ofSentence (verbAndNounPhrases "saw") ["they", "saw", "us"]).cell (0, 2) ∧
      raisedSubject "" "saw" ∈
        (Chart.ofSentence (verbAndNounPhrases "saw") ["", "saw"]).cell (0, 2) ∧
      ∀ full, ¬ (record full (raisedSubject "they" "saw")).Same
        (record full (raisedSubject "" "saw")) := by
  have hlexicon := verbAndNounPhrases_hasBareInfinitive "saw"
  have hmem := raisedSubject_mem_cell (show "they" ≠ "saw" by decide) ["us"]
  have hmem' := raisedSubject_mem_cell (show "" ≠ "saw" by decide) []
  have hne : raisedSubject "they" "saw" ≠ raisedSubject "" "saw" := by decide
  exact ⟨hlexicon, hmem, hmem', fun full h =>
    hne ((record_injective hlexicon hmem hmem' full).mp h)⟩

end Export

end Categorial

import Categorial.Derivation.Basic

/-!
# The characters of written categories

A category is written in brackets, slashes, the signs of the modalities and the letters of its
symbols. Most of what the formats of texts rely on, such as that no written category has a blank, a
number sign or a digit, is a check of this alphabet.

* `mem_alphabet_of_mem_render`: a written category has no other characters.
* `forall_mem_label`: the labels of derivations have three more.
-/

namespace Categorial

namespace Category

/-- The characters in which categories are written. -/
def alphabet : List Char :=
  ['(', ')', '/', '\\', '★', '◇', '×', '𝑖', '[', ']', 'X'] ++
    Primitive.all.flatMap (·.symbol.toList) ++ ClauseForm.all.flatMap (·.symbol.toList)

variable {a : Char}

theorem mem_alphabet_of_mem_symbol {b : Primitive} (h : a ∈ b.symbol.toList) : a ∈ alphabet := by
  have hb : b ∈ Primitive.all := by cases b <;> decide
  exact List.mem_append_left _ (List.mem_append_right _ (List.mem_flatMap_of_mem hb h))

theorem mem_alphabet_of_mem_form {f : ClauseForm} (h : a ∈ f.symbol.toList) : a ∈ alphabet := by
  have hf : f ∈ ClauseForm.all := by cases f <;> decide
  exact List.mem_append_right _ (List.mem_flatMap_of_mem hf h)

theorem mem_alphabet_of_mem_slash {d : Slash} (h : a ∈ d.render.toList) : a ∈ alphabet := by
  obtain ⟨e, m⟩ := d
  have hall : (Slash.render ⟨e, m⟩).toList.all (· ∈ alphabet) = true := by
    cases e <;> cases m <;> decide
  exact of_decide_eq_true (List.all_eq_true.mp hall a h)

theorem mem_alphabet_of_mem_atom {b : Atom} (h : a ∈ b.render.toList) : a ∈ alphabet := by
  cases b with
  | bare b => exact mem_alphabet_of_mem_symbol h
  | clause f =>
    simp only [Atom.render, renderFeature, String.toList_append, List.mem_append] at h
    obtain ((h | h) | h) | h := h
    · exact mem_alphabet_of_mem_symbol h
    · rw [List.mem_singleton.mp h]
      decide
    · exact mem_alphabet_of_mem_form h
    · rw [List.mem_singleton.mp h]
      decide

theorem mem_alphabet_of_mem_bracket {c : Category} {text : String}
    (htext : ∀ a ∈ text.toList, a ∈ alphabet) (h : a ∈ (c.bracket text).toList) :
    a ∈ alphabet := by
  unfold bracket at h
  split at h
  · simp only [String.toList_append, List.mem_append] at h
    obtain (h | h) | h := h
    · rw [List.mem_singleton.mp h]
      decide
    · exact htext a h
    · rw [List.mem_singleton.mp h]
      decide
  · exact htext a h

theorem mem_alphabet_of_mem_render {c : Category} (h : a ∈ c.render.toList) : a ∈ alphabet := by
  induction c generalizing a with
  | var =>
    rw [List.mem_singleton.mp h]
    decide
  | atom b => exact mem_alphabet_of_mem_atom h
  | functor r d x ihr ihx =>
    simp only [render_functor, String.toList_append, List.mem_append] at h
    obtain (h | h) | h := h
    · exact mem_alphabet_of_mem_bracket (fun _ => ihr) h
    · exact mem_alphabet_of_mem_slash h
    · exact mem_alphabet_of_mem_bracket (fun _ => ihx) h

/-- What holds of every character of the alphabet holds of every character of a category. -/
theorem forall_mem_render {p : Char → Bool} (hp : alphabet.all p = true) (c : Category) :
    ∀ a ∈ c.render.toList, p a = true :=
  fun a h => List.all_eq_true.mp hp a (mem_alphabet_of_mem_render h)

theorem render_ne_nil (c : Category) : c.render.toList ≠ [] := by
  cases c with
  | var => decide
  | atom b =>
    cases b with
    | bare b => cases b <;> decide
    | clause f => simp [render, Atom.render, renderFeature, Primitive.symbol]
  | functor r d x =>
    obtain ⟨e, m⟩ := d
    cases e <;> simp [render_functor, Slash.render, Direction.symbol]

end Category

namespace Derivation

variable {p : Char → Bool}

theorem forall_mem_renderCategory? (halphabet : Category.alphabet.all p = true)
    (hmissing : p '?' = true) (c : Option Category) :
    ∀ a ∈ (renderCategory? c).toList, p a = true := by
  cases c with
  | none => exact List.forall_mem_singleton.mpr hmissing
  | some c => exact Category.forall_mem_render halphabet c

theorem forall_mem_label (halphabet : Category.alphabet.all p = true)
    (hsigns : ['?', '>', 'T'].all p = true) (d : Derivation) :
    ∀ a ∈ d.label.toList, p a = true := by
  simp only [List.all_cons, List.all_nil, Bool.and_true, Bool.and_eq_true] at hsigns
  obtain ⟨hmissing, hgreater, hletter⟩ := hsigns
  cases d with
  | leaf | node => exact forall_mem_renderCategory? halphabet hmissing _
  | raisedLeaf x y | raised x y =>
    have hsymbol : ∀ a ∈ ['>', 'T'], p a = true := by simp [hgreater, hletter]
    simp only [label, raisedLabel, String.toList_append, List.forall_mem_append]
    exact ⟨⟨Category.forall_mem_render halphabet x, hsymbol⟩,
      forall_mem_renderCategory? halphabet hmissing _⟩

end Derivation

end Categorial

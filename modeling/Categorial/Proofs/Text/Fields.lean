import Mathlib.Data.List.TakeWhile
import Categorial.Proofs.Category.Notation

/-!
# Trimmed texts and fields

What trimming leaves of a text and how the first field is cut off, said without the operations: the
text is put together again from the parts, and each part begins and ends as it should.

* `strip_eq_iff`: the trimmed text is the only one that has blanks around it in the text and none at
  its own ends.
* `fields_eq_nil_iff`: a text without fields is blank.
* `isField_or_exists_append`: a trimmed text is a field, or a field with a trimmed text behind it.
-/

namespace Categorial.Text

open Notation (Blanks)

/-- No blank is at either end. -/
structure Trimmed (t : List Char) : Prop where
  head : ∀ a ∈ t.head?, isBlank a = false
  last : ∀ a ∈ t.getLast?, isBlank a = false

/-- Some characters, and none of them a blank. -/
structure IsField (w : List Char) : Prop where
  ne_nil : w ≠ []
  isBlank_eq_false : ∀ c ∈ w, isBlank c = false

theorem isField_iff {w : List Char} : IsField w ↔ w ≠ [] ∧ w.all (!isBlank ·) = true := by
  rw [List.all_eq_true]
  exact ⟨fun h => ⟨h.ne_nil, fun c hc => by simp [h.isBlank_eq_false c hc]⟩,
    fun h => ⟨h.1, fun c hc => by simpa using h.2 c hc⟩⟩

instance (w : List Char) : Decidable (IsField w) :=
  decidable_of_iff _ isField_iff.symm

theorem trimmed_nil : Trimmed [] :=
  ⟨by simp, by simp⟩

theorem IsField.trimmed {w : List Char} (h : IsField w) : Trimmed w :=
  ⟨fun _ ha => h.isBlank_eq_false _ (List.mem_of_mem_head? ha),
    fun _ ha => h.isBlank_eq_false _ (List.mem_of_mem_getLast? ha)⟩

/-! ## Trimming -/

/-- A text is cut in front of its first character that does not pass a test. -/
theorem exists_cut (p : Char → Bool) (cs : List Char) :
    ∃ u v, cs = u ++ v ∧ (∀ c ∈ u, p c = true) ∧ ∀ a ∈ v.head?, p a = false := by
  refine ⟨cs.takeWhile p, cs.dropWhile p, List.takeWhile_append_dropWhile.symm,
    fun _ => List.mem_takeWhile_imp, ?_⟩
  intro a ha
  have hhead := List.head?_dropWhile_not p cs
  rw [ha] at hhead
  exact hhead

theorem dropWhile_append_blanks {s : List Char} (hs : Blanks s) (t : List Char) :
    (s ++ t).dropWhile isBlank = t.dropWhile isBlank :=
  List.dropWhile_append_of_pos hs

theorem dropWhile_eq_self {t : List Char} (h : ∀ a ∈ t.head?, isBlank a = false) :
    t.dropWhile isBlank = t := by
  cases t with
  | nil => rfl
  | cons a t => rw [List.dropWhile_cons, if_neg (by simp [h a rfl])]

theorem stripRight_append_blanks {s : List Char} (hs : Blanks s) (t : List Char) :
    stripRight (t ++ s) = stripRight t := by
  have hreverse : Blanks s.reverse := fun c hc => hs c (List.mem_reverse.mp hc)
  rw [stripRight, List.reverse_append, dropWhile_append_blanks hreverse, ← stripRight]

theorem stripRight_eq_self {t : List Char} (h : ∀ a ∈ t.getLast?, isBlank a = false) :
    stripRight t = t := by
  rw [stripRight, dropWhile_eq_self (by rwa [List.head?_reverse]), List.reverse_reverse]

theorem exists_eq_stripRight_append (cs : List Char) :
    ∃ s, cs = stripRight cs ++ s ∧ Blanks s := by
  refine ⟨(cs.reverse.takeWhile isBlank).reverse, ?_, fun c hc => ?_⟩
  · rw [stripRight, ← List.reverse_append, List.takeWhile_append_dropWhile, List.reverse_reverse]
  · exact List.mem_takeWhile_imp (List.mem_reverse.mp hc)

theorem getLast?_stripRight (cs : List Char) :
    ∀ a ∈ (stripRight cs).getLast?, isBlank a = false := by
  intro a ha
  rw [stripRight, List.getLast?_reverse] at ha
  have hhead := List.head?_dropWhile_not isBlank cs.reverse
  rw [ha] at hhead
  exact hhead

theorem strip_append {s t s' : List Char} (hs : Blanks s) (ht : Trimmed t) (hs' : Blanks s') :
    strip (s ++ (t ++ s')) = t := by
  rw [strip, dropWhile_append_blanks hs]
  cases t with
  | nil => rw [List.nil_append, List.dropWhile_eq_nil_iff.mpr hs', stripRight_eq_self (by simp)]
  | cons a t =>
    rw [dropWhile_eq_self (by simpa using ht.head), stripRight_append_blanks hs',
      stripRight_eq_self ht.last]

theorem exists_eq_strip (cs : List Char) :
    ∃ s s', cs = s ++ (strip cs ++ s') ∧ Blanks s ∧ Blanks s' ∧ Trimmed (strip cs) := by
  obtain ⟨s, t, rfl, hs, ht⟩ := exists_cut isBlank cs
  obtain ⟨s', heq, hs'⟩ := exists_eq_stripRight_append t
  have hstrip : strip (s ++ t) = stripRight t := by
    rw [strip, dropWhile_append_blanks hs, dropWhile_eq_self ht]
  rw [hstrip]
  refine ⟨s, s', by rw [← heq], hs, hs', ⟨fun a ha => ht a ?_, getLast?_stripRight t⟩⟩
  rw [heq, List.head?_append, Option.mem_def.mp ha]
  rfl

theorem strip_eq_iff {cs t : List Char} :
    strip cs = t ↔ ∃ s s', cs = s ++ (t ++ s') ∧ Blanks s ∧ Blanks s' ∧ Trimmed t := by
  constructor
  · rintro rfl
    exact exists_eq_strip cs
  · rintro ⟨s, s', rfl, hs, hs', ht⟩
    exact strip_append hs ht hs'

/-! ## The first field -/

theorem firstField_field {w : List Char} (hw : IsField w) : firstField w = (w, []) := by
  have hall : ∀ c ∈ w, (!isBlank c) = true := fun c hc => by simp [hw.isBlank_eq_false c hc]
  simp only [firstField]
  rw [dropWhile_eq_self hw.trimmed.head, List.takeWhile_eq_self_iff.mpr hall,
    List.dropWhile_eq_nil_iff.mpr hall, List.dropWhile_nil]

theorem firstField_append {w s t : List Char} (hw : IsField w) (hs : Blanks s) (hne : s ≠ [])
    (ht : ∀ a ∈ t.head?, isBlank a = false) : firstField (w ++ (s ++ t)) = (w, t) := by
  have hall : ∀ c ∈ w, (!isBlank c) = true := fun c hc => by simp [hw.isBlank_eq_false c hc]
  obtain ⟨a, s', rfl⟩ := List.exists_cons_of_ne_nil hne
  have ha : isBlank a = true := hs a List.mem_cons_self
  have hfront : (w ++ (a :: s' ++ t)).dropWhile isBlank = w ++ (a :: s' ++ t) := by
    refine dropWhile_eq_self fun c hc => ?_
    obtain ⟨b, w', rfl⟩ := List.exists_cons_of_ne_nil hw.ne_nil
    exact hw.trimmed.head c hc
  simp only [firstField]
  rw [hfront, List.takeWhile_append_of_pos hall, List.dropWhile_append_of_pos hall,
    List.cons_append, List.takeWhile_cons, List.dropWhile_cons, ha]
  simp only [Bool.not_true, Bool.false_eq_true, if_false, List.append_nil]
  rw [← List.cons_append, dropWhile_append_blanks hs, dropWhile_eq_self ht]

/-- A trimmed text that is not empty is a single field, or it is cut behind its first field. -/
theorem isField_or_exists_append {t : List Char} (ht : Trimmed t) (hne : t ≠ []) :
    IsField t ∨ ∃ w s u, t = w ++ (s ++ u) ∧ IsField w ∧ Blanks s ∧ s ≠ [] ∧ u ≠ [] ∧
      Trimmed u := by
  obtain ⟨w, rest, rfl, hw, hrest⟩ := exists_cut (!isBlank ·) t
  have hw : ∀ c ∈ w, isBlank c = false := fun c hc => by simpa using hw c hc
  cases rest with
  | nil =>
    rw [List.append_nil] at hne ⊢
    exact .inl ⟨hne, hw⟩
  | cons a rest =>
    have ha : isBlank a = true := by simpa using hrest a rfl
    obtain ⟨s, u, hsu, hs, hu⟩ := exists_cut isBlank (a :: rest)
    rw [hsu] at ht ⊢
    have hwne : w ≠ [] := by
      rintro rfl
      have hhead : (s ++ u).head? = some a := hsu ▸ rfl
      exact absurd ha (by simp [ht.head a hhead])
    have hsne : s ≠ [] := by
      rintro rfl
      exact absurd ha (by simp [hu a (by rw [← List.nil_append u, ← hsu]; rfl)])
    have hune : u ≠ [] := by
      rintro rfl
      obtain ⟨b, hb⟩ := List.getLast?_isSome.mpr hsne |> Option.isSome_iff_exists.mp
      have hlast : (w ++ (s ++ [])).getLast? = some b := by simp [hb]
      exact absurd (hs b (List.mem_of_mem_getLast? hb)) (by simp [ht.last b hlast])
    refine .inr ⟨w, s, u, rfl, ⟨hwne, hw⟩, hs, hsne, hune, hu, fun b hb => ht.last b ?_⟩
    simp [Option.mem_def.mp hb]

/-! ## All fields -/

theorem forall_pieces_eq_nil_iff {p : Char → Bool} {cs : List Char} :
    (∀ piece ∈ pieces p cs, piece = []) ↔ ∀ c ∈ cs, p c = true := by
  induction cs with
  | nil => simp
  | cons c cs ih =>
    rw [pieces_cons, List.forall_mem_cons, ← ih]
    split_ifs with hc
    · simp [hc]
    · obtain ⟨piece, rest, hrest⟩ := List.exists_cons_of_ne_nil (pieces_ne_nil p cs)
      simp [hrest, consFirst, hc]

theorem fields_eq_nil_iff {cs : List Char} : fields cs = [] ↔ ∀ c ∈ cs, isBlank c = true := by
  rw [← forall_pieces_eq_nil_iff, fields, List.filter_eq_nil_iff]
  simp

end Categorial.Text

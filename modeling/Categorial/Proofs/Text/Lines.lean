import Categorial.Text.Lines

/-!
# The lines of a text

What the lines of a text are, as a relation between a text and its lines that mentions neither the
unification of line ends nor the cutting at line feeds. A line has neither of the two characters
that end lines. A carriage return in front of a line feed belongs to the same line end, and the last
line may be without an end unless it is empty.

* `lines_eq_iff`: `lines` finds the lines of every text, and no text has other lines as well.
* `splitLines_flatMap`: lines that are put behind one another, each with a line feed, are found.
-/

namespace Categorial.Text

/-- Neither of the characters that end lines is in the line. -/
def IsLine (l : List Char) : Prop :=
  '\n' ∉ l ∧ '\r' ∉ l

/-- The line ends. -/
inductive LineEnd : List Char → Prop
  | feed : LineEnd ['\n']
  | returnFeed : LineEnd ['\r', '\n']
  | carriageReturn : LineEnd ['\r']

/-- The lines of a text. -/
inductive Lined : List Char → List (List Char) → Prop
  | nil : Lined [] []
  | last {l : List Char} (hl : IsLine l) (hne : l ≠ []) : Lined l [l]
  | cons {l e cs : List Char} {ls : List (List Char)} (hl : IsLine l) (he : LineEnd e)
      (hlong : e = ['\r'] → cs.head? ≠ some '\n') (hcs : Lined cs ls) :
      Lined (l ++ (e ++ cs)) (l :: ls)

/-! ## Pieces between line feeds -/

theorem pieces_append_cons {p : Char → Bool} {l : List Char} {a : Char}
    (hl : ∀ c ∈ l, p c = false) (ha : p a = true) (cs : List Char) :
    pieces p (l ++ a :: cs) = l :: pieces p cs := by
  induction l with
  | nil => rw [List.nil_append, pieces_cons, if_pos ha]
  | cons c l ih =>
    rw [List.forall_mem_cons] at hl
    rw [List.cons_append, pieces_cons, if_neg (by simp [hl.1]), ih hl.2, consFirst]

theorem pieces_of_forall {p : Char → Bool} {l : List Char} (hl : ∀ c ∈ l, p c = false) :
    pieces p l = [l] := by
  induction l with
  | nil => rfl
  | cons c l ih =>
    rw [List.forall_mem_cons] at hl
    rw [pieces_cons, if_neg (by simp [hl.1]), ih hl.2, consFirst]

theorem beq_feed_eq_false {l : List Char} (hl : '\n' ∉ l) : ∀ c ∈ l, (c == '\n') = false := by
  intro c hc
  exact beq_false_of_ne fun heq => hl (heq ▸ hc)

theorem splitLines_append_cons {l : List Char} (hl : '\n' ∉ l) (cs : List Char) :
    splitLines (l ++ '\n' :: cs) = l :: splitLines cs := by
  obtain ⟨p, ps, hps⟩ := List.exists_cons_of_ne_nil (pieces_ne_nil (· == '\n') cs)
  rw [splitLines, splitLines, pieces_append_cons (beq_feed_eq_false hl) (beq_self_eq_true _), hps,
    List.getLast?_cons_cons]
  split <;> rfl

theorem splitLines_of_notMem {l : List Char} (hl : '\n' ∉ l) (hne : l ≠ []) :
    splitLines l = [l] := by
  rw [splitLines, pieces_of_forall (beq_feed_eq_false hl), if_neg (by simpa using hne)]

theorem splitLines_flatMap {ls : List (List Char)} (hls : ∀ l ∈ ls, '\n' ∉ l) :
    splitLines (ls.flatMap (· ++ ['\n'])) = ls := by
  induction ls with
  | nil => rfl
  | cons l ls ih =>
    rw [List.forall_mem_cons] at hls
    rw [List.flatMap_cons, List.append_assoc, List.singleton_append, splitLines_append_cons hls.1,
      ih hls.2]

/-! ## Unified line ends -/

theorem unifyLineEnds_cons (c : Char) (cs : List Char) :
    unifyLineEnds (c :: cs) =
      if c = '\r' then (if cs.head? = some '\n' then unifyLineEnds cs else '\n' :: unifyLineEnds cs)
      else c :: unifyLineEnds cs := by
  have hhead : ∀ cs : List Char, (cs.foldr unifyStep ([], none)).2 = cs.head? := by
    intro cs
    cases cs <;> rfl
  simp only [unifyLineEnds, List.foldr_cons, unifyStep, hhead]

theorem unifyLineEnds_append {l : List Char} (hl : '\r' ∉ l) (cs : List Char) :
    unifyLineEnds (l ++ cs) = l ++ unifyLineEnds cs := by
  induction l with
  | nil => rfl
  | cons c l ih =>
    rw [List.mem_cons, not_or] at hl
    rw [List.cons_append, unifyLineEnds_cons, if_neg (Ne.symm hl.1), ih hl.2, List.cons_append]

theorem unifyLineEnds_lineEnd {e cs : List Char} (he : LineEnd e)
    (hlong : e = ['\r'] → cs.head? ≠ some '\n') :
    unifyLineEnds (e ++ cs) = '\n' :: unifyLineEnds cs := by
  cases he with
  | feed => rw [List.singleton_append, unifyLineEnds_cons, if_neg (by decide)]
  | returnFeed =>
    rw [List.cons_append, unifyLineEnds_cons, if_pos rfl, if_pos (by rfl), List.singleton_append,
      unifyLineEnds_cons, if_neg (by decide)]
  | carriageReturn =>
    rw [List.singleton_append, unifyLineEnds_cons, if_pos rfl, if_neg (hlong rfl)]

/-! ## Finding the lines -/

theorem splitLines_of_lined {cs : List Char} {ls : List (List Char)} (h : Lined cs ls) :
    splitLines (unifyLineEnds cs) = ls := by
  induction h with
  | nil => rfl
  | last hl hne => rw [unifyLineEnds_eq_self hl.2, splitLines_of_notMem hl.1 hne]
  | cons hl he hlong _ ih =>
    rw [unifyLineEnds_append hl.2, unifyLineEnds_lineEnd he hlong, splitLines_append_cons hl.1, ih]

/-- A character that ends no line is put in front of the first line, or is a line of its own. -/
theorem exists_lined_cons {c : Char} {cs : List Char} {ls : List (List Char)} (hfeed : c ≠ '\n')
    (hreturn : c ≠ '\r') (h : Lined cs ls) : ∃ ls', Lined (c :: cs) ls' := by
  have hcons : ∀ {l : List Char}, IsLine l → IsLine (c :: l) := fun hl =>
    ⟨by simp [hl.1, hfeed.symm], by simp [hl.2, hreturn.symm]⟩
  cases h with
  | nil => exact ⟨[[c]], .last (hcons ⟨List.not_mem_nil, List.not_mem_nil⟩) (List.cons_ne_nil c [])⟩
  | last hl _ => exact ⟨_, .last (hcons hl) (List.cons_ne_nil c _)⟩
  | cons hl he hlong hcs => exact ⟨_, .cons (hcons hl) he hlong hcs⟩

theorem lined_of_feed {cs : List Char} {ls : List (List Char)} (h : Lined ('\n' :: cs) ls) :
    ∃ ls', Lined cs ls' := by
  generalize hcs : '\n' :: cs = text at h
  cases h with
  | nil => cases hcs
  | last hl _ => exact absurd (hcs ▸ List.mem_cons_self) hl.1
  | @cons l e rest ls hl he _ hrest =>
    cases l with
    | cons a l =>
      rw [List.cons_append] at hcs
      exact absurd ((List.cons.inj hcs).1 ▸ List.mem_cons_self) hl.1
    | nil =>
      cases he with
      | feed => exact ⟨ls, (List.cons.inj hcs).2 ▸ hrest⟩
      | returnFeed | carriageReturn => cases (List.cons.inj hcs).1

/-- Every text has lines: read from its end, a character either continues the line behind it or
ends one. -/
theorem exists_lined (cs : List Char) : ∃ ls, Lined cs ls := by
  have hempty : IsLine [] := ⟨List.not_mem_nil, List.not_mem_nil⟩
  induction cs with
  | nil => exact ⟨[], .nil⟩
  | cons c cs ih =>
    obtain ⟨ls, h⟩ := ih
    by_cases hfeed : c = '\n'
    · subst hfeed
      exact ⟨[] :: ls, .cons hempty .feed (by simp) h⟩
    · by_cases hreturn : c = '\r'
      · subst hreturn
        by_cases hnext : cs.head? = some '\n'
        · obtain ⟨rest, rfl⟩ := List.head?_eq_some_iff.mp hnext
          obtain ⟨ls', hrest⟩ := lined_of_feed h
          exact ⟨[] :: ls', .cons hempty .returnFeed (by simp) hrest⟩
        · exact ⟨[] :: ls, .cons hempty .carriageReturn (fun _ => hnext) h⟩
      · exact exists_lined_cons hfeed hreturn h

theorem lines_eq_iff {text : String} {ls : List (List Char)} :
    lines text = ls ↔ Lined text.toList ls := by
  constructor
  · rintro rfl
    obtain ⟨ls, h⟩ := exists_lined text.toList
    rw [lines, splitLines_of_lined h]
    exact h
  · exact splitLines_of_lined

end Categorial.Text

import Mathlib.Algebra.GroupWithZero.Nat
import Categorial.Export.Diagram
import Categorial.Proofs.Category.Alphabet
import Categorial.Proofs.Derivation.Conservation
import Categorial.Proofs.Text.Fields
import Categorial.Proofs.Text.Lines

/-!
# The columns of a drawn derivation

Each leaf has a column of its own, wide enough for its label and its word with blanks on both sides.
A step covers consecutive leaves, so its lines stand in consecutive columns, from the first column
of its first part to the last column of its last part. A column has at least three characters and
no sign of a rule has more, so there is always room for a dash in front of the sign.

* `allStepLines_eq`: the steps are drawn in the order in which they are made.
* `exists_leaves_eq`, `abut_parts`: where a step and its parts stand.
* `symbol_lt_width`: the columns of a step are wider than its sign.
* `diagram_layout`: what stands where in a drawing.
-/

namespace Categorial.Export

open Category Categorial.Derivation Text

/-! ## Steps -/

/-- A derivation inside another one, with the number of leaves in front of its own. -/
structure Step where
  start : Nat
  derivation : Derivation

namespace Step

/-- The number of leaves up to the last one of the derivation. -/
def stop (s : Step) : Nat :=
  s.start + s.derivation.leaves.length

/-- The same derivation behind further leaves. -/
def shift (k : Nat) (s : Step) : Step :=
  ⟨k + s.start, s.derivation⟩

/-- The parts of a derivation where they stand. -/
def parts : Step → List Step
  | ⟨start, raised _ _ child⟩ => [⟨start, child⟩]
  | ⟨start, node _ left right⟩ => [⟨start, left⟩, ⟨start + left.leaves.length, right⟩]
  | _ => []

end Step

/-- The steps of a derivation in the order in which they are made: those of its parts, from left to
right, in front of its own. -/
def steps : Derivation → List Step
  | raised x y child => steps child ++ [⟨0, raised x y child⟩]
  | node r left right =>
    steps left ++ ((steps right).map (Step.shift left.leaves.length) ++ [⟨0, node r left right⟩])
  | _ => []

theorem map_derivation_steps (d : Derivation) :
    ((steps d).map Step.derivation).Perm (d.subtrees.filter (!·.isLeaf)) := by
  induction d with
  | leaf | raisedLeaf => exact .nil
  | raised x y child ih =>
    rw [steps, subtrees, List.map_append, List.map_singleton, List.filter_cons_of_pos rfl]
    exact (List.perm_append_comm.trans (.refl _)).trans (ih.cons _)
  | node r left right ihl ihr =>
    have hshift : Step.derivation ∘ Step.shift left.leaves.length = Step.derivation := rfl
    rw [steps, subtrees, List.filter_cons_of_pos rfl, List.filter_append, ← List.append_assoc,
      List.map_append, List.map_append, List.map_map, hshift, List.map_singleton]
    exact List.perm_append_comm.trans ((ihl.append ihr).cons _)

/-- A step covers the leaves of its derivation. -/
theorem exists_leaves_eq {d : Derivation} {s : Step} (h : s ∈ steps d) :
    ∃ u v, d.leaves = u ++ (s.derivation.leaves ++ v) ∧ u.length = s.start := by
  induction d generalizing s with
  | leaf | raisedLeaf => cases h
  | raised x y child ih =>
    obtain h | h := List.mem_append.mp h
    · exact ih h
    · obtain rfl := List.mem_singleton.mp h
      exact ⟨[], [], (List.append_nil _).symm, rfl⟩
  | node r left right ihl ihr =>
    simp only [steps, List.mem_append, List.mem_map, List.mem_singleton] at h
    obtain h | ⟨t, ht, rfl⟩ | rfl := h
    · obtain ⟨u, v, hleaves, hu⟩ := ihl h
      exact ⟨u, v ++ right.leaves, by simp [leaves, hleaves], hu⟩
    · obtain ⟨u, v, hleaves, hu⟩ := ihr ht
      refine ⟨left.leaves ++ u, v, by simp [leaves, hleaves, Step.shift], ?_⟩
      rw [List.length_append, hu, Step.shift]
    · exact ⟨[], [], (List.append_nil _).symm, rfl⟩

theorem isLeaf_of_mem_steps {d : Derivation} {s : Step} (h : s ∈ steps d) :
    s.derivation.isLeaf = false := by
  have hmem := (map_derivation_steps d).subset (List.mem_map_of_mem h)
  simpa using (List.mem_filter.mp hmem).2

/-- Derivations that stand side by side from one leaf to another. -/
inductive Abut : Nat → Nat → List Step → Prop
  | nil (a : Nat) : Abut a a []
  | cons {s : Step} {b : Nat} {ss : List Step} (h : Abut s.stop b ss) : Abut s.start b (s :: ss)

/-- The parts of a step cover its leaves. -/
theorem abut_parts {s : Step} (h : s.derivation.isLeaf = false) :
    Abut s.start s.stop s.parts := by
  obtain ⟨start, d⟩ := s
  cases d with
  | leaf | raisedLeaf => cases h
  | raised x y child => exact .cons (s := ⟨start, child⟩) (.nil _)
  | node r left right =>
    have hstop : Step.stop ⟨start, node r left right⟩ =
        Step.stop ⟨start + left.leaves.length, right⟩ := by
      simp only [Step.stop, leaves, List.length_append, Nat.add_assoc]
    rw [hstop]
    exact .cons (s := ⟨start, left⟩) (.cons (s := ⟨start + left.leaves.length, right⟩) (.nil _))

theorem mem_steps_self {d : Derivation} (h : d.isLeaf = false) : ⟨0, d⟩ ∈ steps d := by
  cases d with
  | leaf | raisedLeaf => cases h
  | raised | node => simp [steps]

/-- A part of a step is a step of its own unless it is a leaf. -/
theorem mem_steps_of_mem_parts {d : Derivation} {s p : Step} (hs : s ∈ steps d) (hp : p ∈ s.parts)
    (hleaf : p.derivation.isLeaf = false) : p ∈ steps d := by
  induction d generalizing s p with
  | leaf | raisedLeaf => cases hs
  | raised x y child ih =>
    obtain hs | hs := List.mem_append.mp hs
    · exact List.mem_append_left _ (ih hs hp hleaf)
    · obtain rfl := List.mem_singleton.mp hs
      obtain rfl := List.mem_singleton.mp hp
      exact List.mem_append_left _ (mem_steps_self hleaf)
  | node r left right ihl ihr =>
    simp only [steps, List.mem_append, List.mem_map, List.mem_singleton] at hs ⊢
    obtain hs | ⟨t, ht, rfl⟩ | rfl := hs
    · exact .inl (ihl hs hp hleaf)
    · have hparts : (t.shift left.leaves.length).parts =
          t.parts.map (Step.shift left.leaves.length) := by
        obtain ⟨start, e⟩ := t
        cases e <;> simp [Step.parts, Step.shift, Nat.add_assoc]
      rw [hparts] at hp
      obtain ⟨q, hq, rfl⟩ := List.mem_map.mp hp
      exact .inr (.inl ⟨q, ihr ht hq hleaf, rfl⟩)
    · simp only [Step.parts, List.mem_cons, List.not_mem_nil, or_false] at hp
      obtain rfl | rfl := hp
      · exact .inl (mem_steps_self hleaf)
      · refine .inr (.inl ⟨⟨0, right⟩, mem_steps_self hleaf, ?_⟩)
        rw [Step.shift, Nat.add_zero, Nat.zero_add]

/-- The steps are drawn in the order in which they are made. -/
theorem allStepLines_eq (leaves : List Derivation) (start : Nat) (d : Derivation) :
    allStepLines leaves start d =
      (steps d).flatMap fun s => stepLines leaves (start + s.start) s.derivation := by
  induction d generalizing start with
  | leaf | raisedLeaf => rfl
  | raised x y child ih => simp [allStepLines, steps, ih]
  | node r left right ihl ihr =>
    simp [allStepLines, steps, ihl, ihr, List.flatMap_map, Step.shift, breadth_eq_length_leaves,
      Nat.add_assoc]

/-! ## Widths -/

/-- The width of consecutive columns. -/
def width (leaves : List Derivation) : Nat :=
  (leaves.map columnWidth).sum

theorem width_append (ds es : List Derivation) : width (ds ++ es) = width ds + width es := by
  rw [width, List.map_append, List.sum_append, ← width, ← width]

theorem offset_eq (leaves : List Derivation) (k : Nat) : offset leaves k = width (leaves.take k) :=
  rfl

theorem offset_length_append (u v : List Derivation) : offset (u ++ v) u.length = width u := by
  rw [offset_eq, List.take_left]

theorem leafWord_ne_nil (leaf : Derivation) : leafWord leaf ≠ [] := by
  rw [leafWord, Ne, String.toList_eq_nil_iff]
  unfold shownWord
  split
  · decide
  · split
    · decide
    · assumption

theorem three_le_columnWidth (leaf : Derivation) : 3 ≤ columnWidth leaf := by
  have hword := List.length_pos_iff.mpr (leafWord_ne_nil leaf)
  unfold columnWidth
  omega

theorem three_mul_length_le_width (leaves : List Derivation) :
    3 * leaves.length ≤ width leaves := by
  induction leaves with
  | nil => simp
  | cons leaf leaves ih =>
    have hleaf := three_le_columnWidth leaf
    rw [width] at ih ⊢
    simp only [List.length_cons, List.map_cons, List.sum_cons]
    omega

theorem length_symbol_le (r : Rule) : r.symbol.toList.length ≤ 3 := by
  cases r <;> decide

/-- There is room for a dash in front of the sign of every step. -/
theorem symbol_lt_width {d : Derivation} (h : d.isLeaf = false) :
    d.symbol.toList.length < width d.leaves := by
  have hwidth := three_mul_length_le_width d.leaves
  have hpos : ∀ e : Derivation, 0 < e.leaves.length := fun e =>
    List.length_pos_iff.mpr (leaves_ne_nil e)
  cases d with
  | leaf | raisedLeaf => cases h
  | raised x y child =>
    have hsymbol : (Rule.symbol .forwardTypeRaise).toList.length = 2 := by decide
    have := hpos child
    rw [leaves] at hwidth ⊢
    rw [symbol]
    omega
  | node r left right =>
    have hsymbol := length_symbol_le r
    have hl := hpos left
    have hr := hpos right
    rw [leaves, List.length_append] at hwidth
    rw [leaves, symbol]
    omega

theorem offset_stop_eq {d : Derivation} {s : Step} (h : s ∈ steps d) :
    offset d.leaves s.stop = offset d.leaves s.start + width s.derivation.leaves := by
  obtain ⟨u, v, hleaves, hu⟩ := exists_leaves_eq h
  have hstop : s.stop = (u ++ s.derivation.leaves).length := by
    rw [List.length_append, hu, Step.stop]
  have hfront : offset d.leaves s.start = width u := by
    rw [hleaves, ← hu, offset_length_append]
  rw [hfront, hstop, hleaves, ← List.append_assoc, offset_length_append, width_append]

/-! ## Lines -/

/-- The line of dashes of a step. -/
def ruleLine (leaves : List Derivation) (s : Step) : List Char :=
  let symbol := s.derivation.symbol.toList
  spaces (offset leaves s.start) ++
    (List.replicate (offset leaves s.stop - offset leaves s.start - symbol.length) '-' ++ symbol)

/-- The line with the label of a step. -/
def labelLine (leaves : List Derivation) (s : Step) : List Char :=
  spaces (offset leaves s.start) ++
    center (offset leaves s.stop - offset leaves s.start) s.derivation.label.toList

/-- Blanks in front of column `a`, then dashes, at least one, and the sign up to column `b`. -/
def IsRuleLine (line : List Char) (a b : Nat) (symbol : List Char) : Prop :=
  ∃ k, 0 < k ∧ a + (k + symbol.length) = b ∧ line = spaces a ++ (List.replicate k '-' ++ symbol)

/-- The columns of a line from `a` up to `b` hold a text with blanks on both sides. -/
def IsInside (line : List Char) (a b : Nat) (t : List Char) : Prop :=
  ∃ m n, 0 < m ∧ 0 < n ∧ a + (m + t.length + n) = b ∧
    (line.drop a).take (b - a) = spaces m ++ t ++ spaces n

theorem isRuleLine_ruleLine {d : Derivation} {s : Step} (h : s ∈ steps d) :
    IsRuleLine (ruleLine d.leaves s) (offset d.leaves s.start) (offset d.leaves s.stop)
      s.derivation.symbol.toList := by
  have hroom := symbol_lt_width (isLeaf_of_mem_steps h)
  have hstop := offset_stop_eq h
  exact ⟨_, by omega, by omega, rfl⟩

/-- Of the guard that draws at least one dash nothing is seen. -/
theorem stepLines_eq {d : Derivation} {s : Step} (h : s ∈ steps d) :
    stepLines d.leaves s.start s.derivation = [ruleLine d.leaves s, labelLine d.leaves s] := by
  have hroom := symbol_lt_width (isLeaf_of_mem_steps h)
  have hstop := offset_stop_eq h
  rw [Step.stop, ← breadth_eq_length_leaves] at hstop
  simp only [stepLines, ruleLine, labelLine, Step.stop, ← breadth_eq_length_leaves,
    List.append_assoc]
  rw [Nat.max_eq_left (by omega)]

theorem isField_symbol (d : Derivation) : IsField d.symbol.toList := by
  have hrule : ∀ r : Rule, IsField r.symbol.toList := by
    intro r
    cases r <;> decide
  cases d with
  | leaf => exact ⟨by simp [symbol], by simp [symbol, isBlank]⟩
  | raisedLeaf | raised => exact hrule _
  | node r => exact hrule r

theorem stripRight_ruleLine (leaves : List Derivation) (s : Step) :
    stripRight (ruleLine leaves s) = ruleLine leaves s := by
  have hsymbol := isField_symbol s.derivation
  refine stripRight_eq_self fun a ha => ?_
  rw [ruleLine, ← List.append_assoc, List.getLast?_append_of_ne_nil _ hsymbol.ne_nil] at ha
  exact hsymbol.trimmed.last a ha

theorem diagramLines_eq (d : Derivation) :
    diagramLines d =
      d.leaves.flatMap (fun leaf => center (columnWidth leaf) (leafLabel leaf)) ::
        d.leaves.flatMap (fun leaf => center (columnWidth leaf) (leafWord leaf)) ::
          (steps d).flatMap fun s => [ruleLine d.leaves s, labelLine d.leaves s] := by
  simp only [diagramLines, allStepLines_eq, Nat.zero_add]
  rw [List.flatMap_congr fun s hs => stepLines_eq hs]

theorem offset_cons_succ (leaf : Derivation) (leaves : List Derivation) (k : Nat) :
    offset (leaf :: leaves) (k + 1) = columnWidth leaf + offset leaves k :=
  rfl

theorem offset_succ {leaves : List Derivation} {k : Nat} {leaf : Derivation}
    (h : leaves[k]? = some leaf) :
    offset leaves (k + 1) = offset leaves k + columnWidth leaf := by
  induction leaves generalizing k with
  | nil => cases h
  | cons e es ih =>
    cases k with
    | zero =>
      obtain rfl := Option.some.inj h
      rw [offset_cons_succ, Nat.add_comm]
      rfl
    | succ k => rw [offset_cons_succ, offset_cons_succ, ih (by simpa using h), Nat.add_assoc]

/-- What each leaf has in a line stands in its columns. -/
theorem row_slice {f : Derivation → List Char} (hf : ∀ leaf, (f leaf).length = columnWidth leaf)
    {leaves : List Derivation} {k : Nat} {leaf : Derivation} (h : leaves[k]? = some leaf) :
    ((leaves.flatMap f).drop (offset leaves k)).take (columnWidth leaf) = f leaf := by
  induction leaves generalizing k with
  | nil => cases h
  | cons e es ih =>
    cases k with
    | zero =>
      obtain rfl := Option.some.inj h
      rw [List.flatMap_cons, ← hf e]
      exact List.take_left
    | succ k =>
      rw [offset_cons_succ, List.flatMap_cons, ← hf e, List.drop_length_add_append,
        ih (by simpa using h)]

theorem leftMargin_pos {w n : Nat} (h : n + 2 ≤ w) :
    0 < leftMargin w n ∧ leftMargin w n < w - n := by
  simp only [leftMargin]
  split <;> omega

/-- A text that is two shorter than its column stands inside of it. -/
theorem isInside_row {text : Derivation → List Char}
    (htext : ∀ leaf, (text leaf).length + 2 ≤ columnWidth leaf) {leaves : List Derivation} {k : Nat}
    {leaf : Derivation} (h : leaves[k]? = some leaf) :
    IsInside (leaves.flatMap fun leaf => center (columnWidth leaf) (text leaf))
      (offset leaves k) (offset leaves (k + 1)) (text leaf) := by
  have hlength : ∀ leaf, (center (columnWidth leaf) (text leaf)).length = columnWidth leaf := by
    intro leaf
    have := htext leaf
    rw [length_center]
    omega
  have hoffset := offset_succ h
  obtain ⟨hleft, hright⟩ := leftMargin_pos (htext leaf)
  have := htext leaf
  refine ⟨leftMargin (columnWidth leaf) (text leaf).length,
    columnWidth leaf - (text leaf).length - leftMargin (columnWidth leaf) (text leaf).length,
    hleft, by omega, by omega, ?_⟩
  rw [hoffset, Nat.add_sub_cancel_left, row_slice hlength h, center]

/-! ## The text -/

theorem feed_notMem_spaces (n : Nat) : '\n' ∉ spaces n := by
  simp [spaces, List.mem_replicate]

theorem feed_notMem_center {w : Nat} {t : List Char} (h : '\n' ∉ t) : '\n' ∉ center w t := by
  simp only [center, List.mem_append, not_or]
  exact ⟨⟨feed_notMem_spaces _, h⟩, feed_notMem_spaces _⟩

theorem feed_notMem_label (d : Derivation) : '\n' ∉ d.label.toList := by
  intro h
  have := forall_mem_label (p := (· != '\n')) (by decide) (by decide) d _ h
  simp at this

theorem feed_notMem_leafWord {d leaf : Derivation} (h : ∀ t, some t ∈ d.words → '\n' ∉ t.toList)
    (hleaf : leaf ∈ d.leaves) : '\n' ∉ leafWord leaf := by
  have htoken : leaf.token ∈ d.words := List.mem_map_of_mem hleaf
  unfold leafWord
  cases hword : leaf.token with
  | none => decide
  | some t =>
    rw [shownWord]
    split
    · decide
    · exact h t (hword ▸ htoken)

theorem feed_notMem_diagramLines {d : Derivation} (h : ∀ t, some t ∈ d.words → '\n' ∉ t.toList) :
    ∀ line ∈ diagramLines d, '\n' ∉ line := by
  have hsymbol : ∀ e : Derivation, '\n' ∉ e.symbol.toList := fun e he =>
    absurd ((isField_symbol e).isBlank_eq_false _ he) (by decide)
  rw [diagramLines_eq]
  simp only [List.forall_mem_cons, List.mem_flatMap, not_exists, not_and]
  refine ⟨fun leaf _ => feed_notMem_center (feed_notMem_label leaf),
    fun leaf hleaf => feed_notMem_center (feed_notMem_leafWord h hleaf), ?_⟩
  rintro line ⟨s, -, hline⟩
  simp only [List.mem_cons, List.not_mem_nil, or_false] at hline
  obtain rfl | rfl := hline
  · simp [ruleLine, feed_notMem_spaces, hsymbol, List.mem_replicate]
  · rw [labelLine, List.mem_append, not_or]
    exact ⟨feed_notMem_spaces _, feed_notMem_center (feed_notMem_label _)⟩

theorem splitLines_diagram {d : Derivation} (h : ∀ t, some t ∈ d.words → '\n' ∉ t.toList) :
    splitLines (diagram d).toList = (diagramLines d).map stripRight := by
  have htext : (diagram d).toList = ((diagramLines d).map stripRight).flatMap (· ++ ['\n']) := by
    simp [diagram, String.toList_join, List.flatMap_map]
  rw [htext, splitLines_flatMap]
  intro line hline hmem
  obtain ⟨full, hfull, rfl⟩ := List.mem_map.mp hline
  obtain ⟨s, hs, -⟩ := exists_eq_stripRight_append full
  exact feed_notMem_diagramLines h full hfull (hs ▸ List.mem_append_left _ hmem)

/-- **What stands where in a drawing.** Let no word hold a line feed. Apart from blanks at the ends
of lines, which are taken away, the first line shows the label and the second the word of every leaf
inside the columns of the leaf. Two lines follow for each step, so that there are two more than
twice as many lines as steps, in the order in which the steps are made. A step covers the leaves of
its derivation, which its parts cover one after the other. The first of its lines is blank up to the
columns of these leaves, and these are filled with dashes and the sign of the rule, so there is
always a dash; the second has the label in the middle of the same columns. -/
theorem diagram_layout (d : Derivation) (h : ∀ t, some t ∈ d.words → '\n' ∉ t.toList) :
    ∃ labels words : List Char,
      splitLines (diagram d).toList = (labels :: words :: (steps d).flatMap fun s =>
          [ruleLine d.leaves s, labelLine d.leaves s]).map stripRight ∧
        (splitLines (diagram d).toList).length =
          2 + 2 * (d.subtrees.filter (!·.isLeaf)).length ∧
        ((steps d).map Step.derivation).Perm (d.subtrees.filter (!·.isLeaf)) ∧
        (∀ k leaf, d.leaves[k]? = some leaf →
          offset d.leaves (k + 1) = offset d.leaves k +
              (2 + max (leafLabel leaf).length (leafWord leaf).length) ∧
            IsInside labels (offset d.leaves k) (offset d.leaves (k + 1)) (leafLabel leaf) ∧
            IsInside words (offset d.leaves k) (offset d.leaves (k + 1)) (leafWord leaf)) ∧
        ∀ s ∈ steps d,
          (d.leaves.drop s.start).take s.derivation.leaves.length = s.derivation.leaves ∧
            (Abut s.start s.stop s.parts ∧
              ∀ p ∈ s.parts, p.derivation.isLeaf = false → p ∈ steps d) ∧
            IsRuleLine (ruleLine d.leaves s) (offset d.leaves s.start) (offset d.leaves s.stop)
              s.derivation.symbol.toList ∧
            stripRight (ruleLine d.leaves s) = ruleLine d.leaves s := by
  have hlines := splitLines_diagram h
  have hperm := map_derivation_steps d
  rw [diagramLines_eq] at hlines
  refine ⟨_, _, hlines, ?_, hperm, ?_, ?_⟩
  · have hcount := hperm.length_eq
    rw [List.length_map] at hcount
    rw [hlines, List.length_map, List.length_cons, List.length_cons, List.length_flatMap]
    simp only [List.length_cons, List.length_nil, List.map_const', List.sum_replicate_nat, ← hcount]
    omega
  · intro k leaf hk
    refine ⟨offset_succ hk, isInside_row (fun leaf => ?_) hk, isInside_row (fun leaf => ?_) hk⟩
    · unfold columnWidth
      omega
    · unfold columnWidth
      omega
  · intro s hs
    obtain ⟨u, v, hleaves, hu⟩ := exists_leaves_eq hs
    refine ⟨?_, ⟨abut_parts (isLeaf_of_mem_steps hs), fun p => mem_steps_of_mem_parts hs⟩,
      isRuleLine_ruleLine hs, stripRight_ruleLine _ s⟩
    rw [hleaves, ← hu, List.drop_left, List.take_left]

/-- The raised noun phrase stands in six columns, its sign in the last two. -/
theorem diagram_layout_raisedSubject :
    (∀ t, some t ∈ (raisedSubject "they" "saw").words → '\n' ∉ t.toList) ∧
      (splitLines (diagram (raisedSubject "they" "saw")).toList).length = 6 ∧
      IsRuleLine (ruleLine (raisedSubject "they" "saw").leaves
        ⟨0, raised np (forward (backward s np) np) (leaf np (some "they"))⟩) 0 6 ['>', 'T'] := by
  have hwords : ∀ t, some t ∈ (raisedSubject "they" "saw").words → '\n' ∉ t.toList := by
    intro t ht
    have heq : (raisedSubject "they" "saw").words = [some "they", some "saw"] := rfl
    simp only [heq, List.mem_cons, Option.some.injEq, List.not_mem_nil, or_false] at ht
    obtain rfl | rfl := ht <;> decide
  obtain ⟨labels, words, -, hcount, -, -, hsteps⟩ := diagram_layout _ hwords
  exact ⟨hwords, hcount, (hsteps _ (by simp [raisedSubject, steps])).2.2.1⟩

end Categorial.Export

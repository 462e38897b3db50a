import Categorial.Export.Auto
import Categorial.Export.Bracketed
import Categorial.Proofs.Category.Alphabet
import Categorial.Proofs.Derivation.Lookalike

/-!
# The text formats tell derivations apart

A derivation in one of the auto formats is a sequence of fields with spaces between them, and no
field has a space in it as long as the words have none. The sequence of fields reads in one way
only: no derivation's fields continue those of another, since the first field tells a leaf from a
step and the head of a step says how many parts follow. In brackets the fields cannot be cut at
spaces alone, but a label ends at the first space, and what stands behind the space and behind the
first part tells leaves, raised parts and combinations apart.

Neither format shows neighbours, and only the extended one names the rules. The reading therefore
gives a derivation up to `Lookalike`, and what is missing comes from the grammar.

* `lookalike_of_fields_append`, `lookalike_of_brackets_append`: the formats read in one way only.
* `texts_injective`: equal texts come from equal derivations.
-/

namespace Categorial.Export

open Categorial.Derivation

/-! ## Cutting at a separator -/

theorem eq_of_append_cons {α : Type} {a : α} {u v x y : List α} (hu : a ∉ u) (hv : a ∉ v)
    (h : u ++ a :: x = v ++ a :: y) : u = v ∧ x = y := by
  induction u generalizing v with
  | nil =>
    cases v with
    | nil => exact ⟨rfl, (List.cons.inj h).2⟩
    | cons b v => exact absurd ((List.cons.inj h).1 ▸ List.mem_cons_self) hv
  | cons b u ih =>
    cases v with
    | nil => exact absurd ((List.cons.inj h).1 ▸ List.mem_cons_self) hu
    | cons c v =>
      rw [List.mem_cons, not_or] at hu hv
      obtain ⟨rfl, htail⟩ := List.cons.inj h
      obtain ⟨rfl, hrest⟩ := ih hu.2 hv.2 htail
      exact ⟨rfl, hrest⟩

/-- Fields with a space behind each of them. -/
def spaced (fs : List String) : List Char :=
  fs.flatMap fun f => f.toList ++ [' ']

theorem spaced_cons (f : String) (fs : List String) :
    spaced (f :: fs) = f.toList ++ ' ' :: spaced fs := by
  simp [spaced]

theorem spaced_append (fs gs : List String) : spaced (fs ++ gs) = spaced fs ++ spaced gs :=
  List.flatMap_append

theorem eq_of_spaced_eq {fs gs : List String} (hfs : ∀ f ∈ fs, ' ' ∉ f.toList)
    (hgs : ∀ g ∈ gs, ' ' ∉ g.toList) (h : spaced fs = spaced gs) : fs = gs := by
  induction fs generalizing gs with
  | nil =>
    cases gs with
    | nil => rfl
    | cons => simp [spaced] at h
  | cons f fs ih =>
    cases gs with
    | nil => simp [spaced] at h
    | cons g gs =>
      rw [spaced_cons, spaced_cons] at h
      rw [List.forall_mem_cons] at hfs hgs
      obtain ⟨hfield, hrest⟩ := eq_of_append_cons hfs.1 hgs.1 h
      rw [String.toList_inj.mp hfield, ih hfs.2 hgs.2 hrest]

/-! ## Labels -/

theorem space_notMem_label (d : Derivation) : ' ' ∉ d.label.toList := by
  intro h
  have := forall_mem_label (p := (· != ' ')) (by decide) (by decide) d _ h
  simp at this

/-! ## Words -/

/-- A word that is there, is not empty and has none of the given characters. -/
def IsWordWithout (marks : List Char) (w : Option String) : Prop :=
  ∃ t, w = some t ∧ t ≠ "" ∧ ∀ c ∈ marks, c ∉ t.toList

namespace IsWordWithout

variable {marks : List Char} {w w' : Option String}

theorem notMem_shownWord (h : IsWordWithout marks w) {c : Char} (hc : c ∈ marks) :
    c ∉ (shownWord w).toList := by
  obtain ⟨t, rfl, hne, hmarks⟩ := h
  simpa only [shownWord, if_neg hne] using hmarks c hc

theorem shownWord_ne_empty (h : IsWordWithout marks w) : shownWord w ≠ "" := by
  obtain ⟨t, rfl, hne, -⟩ := h
  simpa only [shownWord, if_neg hne] using hne

theorem eq_of_shownWord_eq (h : IsWordWithout marks w) (h' : IsWordWithout marks w')
    (heq : shownWord w = shownWord w') : w = w' := by
  obtain ⟨t, rfl, hne, -⟩ := h
  obtain ⟨t', rfl, hne', -⟩ := h'
  simpa only [shownWord, if_neg hne, if_neg hne', Option.some.injEq] using heq

theorem not_raisedLeaf {x y : Category}
    (h : ∀ v ∈ (raisedLeaf x y).words, IsWordWithout marks v) : False := by
  obtain ⟨t, ht, -⟩ := h none (List.mem_singleton_self none)
  cases ht

end IsWordWithout

theorem forall_words_leaf {P : Option String → Prop} {c : Category} {w : Option String} :
    (∀ v ∈ (leaf c w).words, P v) ↔ P w :=
  List.forall_mem_singleton

theorem forall_words_raised {P : Option String → Prop} {x y : Category} {child : Derivation} :
    (∀ v ∈ (raised x y child).words, P v) ↔ ∀ v ∈ child.words, P v :=
  Iff.rfl

theorem forall_words_node {P : Option String → Prop} {r : Rule} {left right : Derivation} :
    (∀ v ∈ (node r left right).words, P v) ↔ (∀ v ∈ left.words, P v) ∧ ∀ v ∈ right.words, P v := by
  simp only [words, leaves, List.map_append, List.forall_mem_append]

/-! ## Fields -/

/-- The fields of a leaf. -/
def leafFields (extended : Bool) (d : Derivation) : List String :=
  "(<L" :: d.label :: ((if extended then [] else ["POS", "POS"]) ++
    [shownWord d.token, d.label ++ ">)"])

/-- The fields in front of the parts of a derivation. -/
def stepFields (extended : Bool) (d : Derivation) (parts : Nat) : List String :=
  "(<T" :: d.label :: ((if extended then [d.code] else []) ++
    [headDigit d, toString parts ++ ">"])

/-- The fields of a derivation in the auto format or in the extended one. -/
def fields (extended : Bool) : Derivation → List String
  | raised x y child =>
    stepFields extended (raised x y child) 1 ++ (fields extended child ++ [")"])
  | node r left right =>
    stepFields extended (node r left right) 2 ++
      (fields extended left ++ (fields extended right ++ [")"]))
  | d => leafFields extended d

theorem spaced_fields_auto (d : Derivation) :
    spaced (fields false d) = (auto d).toList ++ [' '] := by
  induction d with
  | leaf | raisedLeaf => simp [fields, leafFields, spaced, auto, autoLeaf]
  | raised x y child ih =>
    simp only [fields, spaced_append, ih]
    simp [stepFields, spaced, auto, autoHead]
  | node r left right ihl ihr =>
    simp only [fields, spaced_append, ihl, ihr]
    simp [stepFields, spaced, auto, autoHead]

theorem spaced_fields_autoExtended (d : Derivation) :
    spaced (fields true d) = (autoExtended d).toList ++ [' '] := by
  induction d with
  | leaf | raisedLeaf => simp [fields, leafFields, spaced, autoExtended, extendedLeaf]
  | raised x y child ih =>
    simp only [fields, spaced_append, ih]
    simp [stepFields, spaced, autoExtended, extendedHead]
  | node r left right ihl ihr =>
    simp only [fields, spaced_append, ihl, ihr]
    simp [stepFields, spaced, autoExtended, extendedHead]

theorem space_notMem_code (d : Derivation) : ' ' ∉ d.code.toList := by
  cases d with
  | leaf | raisedLeaf | raised => simp [code, Rule.code]
  | node r => cases r <;> simp [code, Rule.code]

theorem space_notMem_headDigit (d : Derivation) : ' ' ∉ (headDigit d).toList := by
  unfold headDigit
  split <;> decide

theorem space_notMem_of_mem_leafFields {extended : Bool} {d : Derivation}
    (hword : ' ' ∉ (shownWord d.token).toList) :
    ∀ f ∈ leafFields extended d, ' ' ∉ f.toList := by
  cases extended <;> simp [leafFields, hword, space_notMem_label]

theorem space_notMem_of_mem_stepFields {extended : Bool} {d : Derivation} {parts : Nat} :
    ∀ f ∈ stepFields extended d parts, ' ' ∉ f.toList := by
  have hparts : ' ' ∉ Nat.toDigits 10 parts := fun h =>
    absurd (Nat.isDigit_of_mem_toDigits (by decide) (by decide) h) (by decide)
  cases extended <;>
    simp [stepFields, hparts, space_notMem_label, space_notMem_code, space_notMem_headDigit]

theorem space_notMem_of_mem_fields {extended : Bool} {d : Derivation}
    (hwords : ∀ w ∈ d.words, IsWordWithout [' '] w) :
    ∀ f ∈ fields extended d, ' ' ∉ f.toList := by
  have hend : ∀ f ∈ [")"], ' ' ∉ f.toList := by decide
  induction d with
  | leaf c w =>
    rw [forall_words_leaf] at hwords
    exact space_notMem_of_mem_leafFields (hwords.notMem_shownWord List.mem_cons_self)
  | raisedLeaf => exact (IsWordWithout.not_raisedLeaf hwords).elim
  | raised x y child ih =>
    simp only [fields, List.forall_mem_append]
    exact ⟨space_notMem_of_mem_stepFields, ih hwords, hend⟩
  | node r left right ihl ihr =>
    rw [forall_words_node] at hwords
    simp only [fields, List.forall_mem_append]
    exact ⟨space_notMem_of_mem_stepFields, ihl hwords.1, ihr hwords.2, hend⟩

theorem leafFields_append_inj {extended : Bool} {d d' : Derivation} {rest rest' : List String}
    (h : leafFields extended d ++ rest = leafFields extended d' ++ rest') :
    d.label = d'.label ∧ shownWord d.token = shownWord d'.token ∧ rest = rest' := by
  cases extended <;> simp_all [leafFields]

theorem stepFields_append_inj {extended : Bool} {d d' : Derivation} {parts parts' : Nat}
    {rest rest' : List String}
    (h : stepFields extended d parts ++ rest = stepFields extended d' parts' ++ rest') :
    d.label = d'.label ∧ toString parts = toString parts' ∧ rest = rest' := by
  cases extended <;> simp_all [stepFields]

theorem leafFields_append_ne {extended : Bool} {d d' : Derivation} {parts : Nat}
    {rest rest' : List String} :
    leafFields extended d ++ rest ≠ stepFields extended d' parts ++ rest' := by
  simp [leafFields, stepFields]

/-- The fields of a derivation read in one way only, whatever follows them. -/
theorem lookalike_of_fields_append {extended : Bool} {d d' : Derivation}
    {rest rest' : List String} (hd : ∀ w ∈ d.words, IsWordWithout [' '] w)
    (hd' : ∀ w ∈ d'.words, IsWordWithout [' '] w)
    (h : fields extended d ++ rest = fields extended d' ++ rest') :
    Lookalike d d' ∧ rest = rest' := by
  induction d generalizing d' rest rest' with
  | leaf c w =>
    cases d' with
    | leaf c' w' =>
      rw [forall_words_leaf] at hd hd'
      obtain ⟨hlabel, hword, hrest⟩ := leafFields_append_inj h
      obtain rfl := hd.eq_of_shownWord_eq hd' hword
      exact ⟨.leaf hlabel w, hrest⟩
    | raisedLeaf => exact (IsWordWithout.not_raisedLeaf hd').elim
    | raised | node =>
      simp only [fields, List.append_assoc] at h
      exact absurd h leafFields_append_ne
  | raisedLeaf => exact (IsWordWithout.not_raisedLeaf hd).elim
  | raised x y child ih =>
    cases d' with
    | leaf =>
      simp only [fields, List.append_assoc] at h
      exact absurd h.symm leafFields_append_ne
    | raisedLeaf => exact (IsWordWithout.not_raisedLeaf hd').elim
    | raised x' y' child' =>
      simp only [fields, List.append_assoc] at h
      obtain ⟨-, -, h⟩ := stepFields_append_inj h
      obtain ⟨hchild, hrest⟩ :=
        ih (forall_words_raised.mp hd) (forall_words_raised.mp hd') h
      exact ⟨.raised x y x' y' hchild, (List.cons.inj hrest).2⟩
    | node =>
      simp only [fields, List.append_assoc] at h
      obtain ⟨-, hparts, -⟩ := stepFields_append_inj h
      exact absurd hparts (by decide)
  | node r left right ihl ihr =>
    cases d' with
    | leaf =>
      simp only [fields, List.append_assoc] at h
      exact absurd h.symm leafFields_append_ne
    | raisedLeaf => exact (IsWordWithout.not_raisedLeaf hd').elim
    | raised =>
      simp only [fields, List.append_assoc] at h
      obtain ⟨-, hparts, -⟩ := stepFields_append_inj h
      exact absurd hparts (by decide)
    | node r' left' right' =>
      rw [forall_words_node] at hd hd'
      simp only [fields, List.append_assoc] at h
      obtain ⟨hlabel, -, h⟩ := stepFields_append_inj h
      obtain ⟨hleft, h⟩ := ihl hd.1 hd'.1 h
      obtain ⟨hright, hrest⟩ := ihr hd.2 hd'.2 h
      exact ⟨.node hlabel hleft hright, (List.cons.inj hrest).2⟩

theorem lookalike_of_fields_eq (extended : Bool) {d d' : Derivation}
    (hd : ∀ w ∈ d.words, IsWordWithout [' '] w) (hd' : ∀ w ∈ d'.words, IsWordWithout [' '] w)
    (h : spaced (fields extended d) = spaced (fields extended d')) : Lookalike d d' := by
  have hfields : fields extended d = fields extended d' :=
    eq_of_spaced_eq (space_notMem_of_mem_fields hd) (space_notMem_of_mem_fields hd') h
  exact (lookalike_of_fields_append hd hd' (congrArg (· ++ []) hfields)).1

/-! ## Brackets -/

/-- What follows the label of a derivation in brackets. -/
def insides : Derivation → List Char
  | raised _ _ child => (brackets child).toList ++ [')']
  | node _ left right => (brackets left).toList ++ ' ' :: ((brackets right).toList ++ [')'])
  | d => (shownWord d.token).toList ++ [')']

theorem toList_brackets (d : Derivation) :
    (brackets d).toList = '(' :: (d.label.toList ++ ' ' :: insides d) := by
  cases d <;> simp [brackets, insides]

theorem brackets_append_inj {d d' : Derivation} {rest rest' : List Char}
    (h : (brackets d).toList ++ rest = (brackets d').toList ++ rest') :
    d.label = d'.label ∧ insides d ++ rest = insides d' ++ rest' := by
  rw [toList_brackets, toList_brackets, List.cons_append, List.cons_append, List.append_assoc,
    List.append_assoc] at h
  obtain ⟨hlabel, hrest⟩ := eq_of_append_cons (space_notMem_label d) (space_notMem_label d')
    (List.cons.inj h).2
  exact ⟨String.toList_inj.mp hlabel, hrest⟩

/-- A word is not read as a part in brackets. -/
theorem shownWord_append_ne {marks : List Char} {w : Option String} (hw : IsWordWithout marks w)
    (hmark : '(' ∈ marks) {d : Derivation} {rest rest' : List Char} :
    (shownWord w).toList ++ rest ≠ (brackets d).toList ++ rest' := by
  intro h
  have hne : (shownWord w).toList ≠ [] := by
    simpa using hw.shownWord_ne_empty
  have hmem := hw.notMem_shownWord hmark
  obtain ⟨c, cs, hcs⟩ := List.exists_cons_of_ne_nil hne
  rw [hcs, toList_brackets] at h
  obtain ⟨rfl, -⟩ := List.cons.inj h
  exact hmem (hcs ▸ List.mem_cons_self)

/-- A derivation in brackets reads in one way only, whatever follows it. -/
theorem lookalike_of_brackets_append {d d' : Derivation} {rest rest' : List Char}
    (hd : ∀ w ∈ d.words, IsWordWithout ['(', ')'] w)
    (hd' : ∀ w ∈ d'.words, IsWordWithout ['(', ')'] w)
    (h : (brackets d).toList ++ rest = (brackets d').toList ++ rest') :
    Lookalike d d' ∧ rest = rest' := by
  have hmark : '(' ∈ ['(', ')'] := by decide
  have hmark' : ')' ∈ ['(', ')'] := by decide
  induction d generalizing d' rest rest' with
  | leaf c w =>
    rw [forall_words_leaf] at hd
    obtain ⟨hlabel, h⟩ := brackets_append_inj h
    cases d' with
    | leaf c' w' =>
      rw [forall_words_leaf] at hd'
      simp only [insides, List.append_assoc] at h
      obtain ⟨hword, hrest⟩ :=
        eq_of_append_cons (hd.notMem_shownWord hmark') (hd'.notMem_shownWord hmark') h
      obtain rfl := hd.eq_of_shownWord_eq hd' (String.toList_inj.mp hword)
      exact ⟨.leaf hlabel w, hrest⟩
    | raisedLeaf => exact (IsWordWithout.not_raisedLeaf hd').elim
    | raised | node =>
      simp only [insides, List.append_assoc] at h
      exact absurd h (shownWord_append_ne hd hmark)
  | raisedLeaf => exact (IsWordWithout.not_raisedLeaf hd).elim
  | raised x y child ih =>
    obtain ⟨-, h⟩ := brackets_append_inj h
    cases d' with
    | leaf c' w' =>
      rw [forall_words_leaf] at hd'
      simp only [insides, List.append_assoc] at h
      exact absurd h.symm (shownWord_append_ne hd' hmark)
    | raisedLeaf => exact (IsWordWithout.not_raisedLeaf hd').elim
    | raised x' y' child' =>
      simp only [insides, List.append_assoc] at h
      obtain ⟨hchild, hrest⟩ :=
        ih (forall_words_raised.mp hd) (forall_words_raised.mp hd') h
      exact ⟨.raised x y x' y' hchild, (List.cons.inj hrest).2⟩
    | node r' left' right' =>
      -- the first part ends where the one has a bracket and the other a space
      simp only [insides, List.append_assoc] at h
      obtain ⟨-, hrest⟩ :=
        ih (forall_words_raised.mp hd) (forall_words_node.mp hd').1 h
      exact absurd (List.cons.inj hrest).1 (by decide)
  | node r left right ihl ihr =>
    rw [forall_words_node] at hd
    obtain ⟨hlabel, h⟩ := brackets_append_inj h
    cases d' with
    | leaf c' w' =>
      rw [forall_words_leaf] at hd'
      simp only [insides, List.append_assoc] at h
      exact absurd h.symm (shownWord_append_ne hd' hmark)
    | raisedLeaf => exact (IsWordWithout.not_raisedLeaf hd').elim
    | raised x' y' child' =>
      simp only [insides, List.append_assoc] at h
      obtain ⟨-, hrest⟩ := ihl hd.1 (forall_words_raised.mp hd') h
      exact absurd (List.cons.inj hrest).1 (by decide)
    | node r' left' right' =>
      rw [forall_words_node] at hd'
      simp only [insides, List.append_assoc, List.cons_append] at h
      obtain ⟨hleft, h⟩ := ihl hd.1 hd'.1 h
      obtain ⟨hright, hrest⟩ := ihr hd.2 hd'.2 (List.cons.inj h).2
      exact ⟨.node hlabel hleft hright, (List.cons.inj hrest).2⟩

theorem lookalike_of_bracketed_eq {d d' : Derivation}
    (hd : ∀ w ∈ d.words, IsWordWithout ['(', ')'] w)
    (hd' : ∀ w ∈ d'.words, IsWordWithout ['(', ')'] w) (h : bracketed d = bracketed d') :
    Lookalike d d' := by
  have htext := congrArg String.toList h
  simp only [bracketed, String.toList_append, List.append_assoc] at htext
  exact (lookalike_of_brackets_append hd hd' (List.append_cancel_left htext)).1

/-! ## The chart -/

theorem isWordWithout_of_mem_cell {lexicon : LexicalEntries} {words : List String} {span : Span}
    {d : Derivation} {marks : List Char}
    (hd : d ∈ (Chart.ofSentence lexicon words).cell span)
    (hwords : ∀ w, some w ∈ d.words → w ≠ "" ∧ ∀ c ∈ marks, c ∉ w.toList) :
    ∀ w ∈ d.words, IsWordWithout marks w := by
  intro w hw
  rw [(Chart.licensed_of_mem_cell hd).words_eq] at hw
  obtain ⟨t, -, rfl⟩ := List.mem_map.mp hw
  exact ⟨t, rfl, hwords t ((Chart.licensed_of_mem_cell hd).words_eq ▸ hw)⟩

/-- **The text formats tell derivations apart.** Over a lexicon without the bare infinitive, let two
derivations from cells of charts, perhaps of different sentences, have no empty words. If their
words are without spaces, they are equal as soon as they are in the auto format or in the extended
one; if their words are without parentheses, as soon as they are in brackets. -/
theorem texts_injective {lexicon : LexicalEntries}
    (hlexicon : ∀ w, ∀ c ∈ lexicon w, c.hasBareInfinitive = false) {words words' : List String}
    {span span' : Span} {d d' : Derivation}
    (hd : d ∈ (Chart.ofSentence lexicon words).cell span)
    (hd' : d' ∈ (Chart.ofSentence lexicon words').cell span')
    (hwords : ∀ w, some w ∈ d.words ∨ some w ∈ d'.words → w ≠ "") :
    ((∀ w, some w ∈ d.words ∨ some w ∈ d'.words → ' ' ∉ w.toList) →
      (auto d = auto d' ↔ d = d') ∧ (autoExtended d = autoExtended d' ↔ d = d')) ∧
    ((∀ w, some w ∈ d.words ∨ some w ∈ d'.words → '(' ∉ w.toList ∧ ')' ∉ w.toList) →
      (bracketed d = bracketed d' ↔ d = d')) := by
  have hlookalike : Lookalike d d' → d = d' :=
    (Chart.licensed_of_mem_cell hd).eq_of_lookalike hlexicon (Chart.licensed_of_mem_cell hd')
  have hwithout : ∀ marks : List Char,
      (∀ w, some w ∈ d.words ∨ some w ∈ d'.words → ∀ c ∈ marks, c ∉ w.toList) →
        (∀ w ∈ d.words, IsWordWithout marks w) ∧ ∀ w ∈ d'.words, IsWordWithout marks w := by
    intro marks hmarks
    exact ⟨isWordWithout_of_mem_cell hd fun w hw => ⟨hwords w (.inl hw), hmarks w (.inl hw)⟩,
      isWordWithout_of_mem_cell hd' fun w hw => ⟨hwords w (.inr hw), hmarks w (.inr hw)⟩⟩
  constructor
  · intro hspaces
    obtain ⟨hw, hw'⟩ := hwithout [' '] fun w hw => List.forall_mem_singleton.mpr (hspaces w hw)
    refine ⟨⟨fun h => hlookalike (lookalike_of_fields_eq false hw hw' ?_),
      congrArg auto⟩, ⟨fun h => hlookalike (lookalike_of_fields_eq true hw hw' ?_),
      congrArg autoExtended⟩⟩
    · rw [spaced_fields_auto, spaced_fields_auto, h]
    · rw [spaced_fields_autoExtended, spaced_fields_autoExtended, h]
  · intro hparentheses
    obtain ⟨hw, hw'⟩ := hwithout ['(', ')'] fun w hw => by
      simpa using hparentheses w hw
    exact ⟨fun h => hlookalike (lookalike_of_bracketed_eq hw hw' h), congrArg bracketed⟩

theorem texts_injective_raisedSubject :
    (∀ w, ∀ c ∈ verbAndNounPhrases "saw" w, c.hasBareInfinitive = false) ∧
      raisedSubject "they" "saw" ∈
        (Chart.ofSentence (verbAndNounPhrases "saw") ["they", "saw", "us"]).cell (0, 2) ∧
      raisedSubject "we" "saw" ∈
        (Chart.ofSentence (verbAndNounPhrases "saw") ["we", "saw"]).cell (0, 2) ∧
      auto (raisedSubject "they" "saw") ≠ auto (raisedSubject "we" "saw") ∧
      autoExtended (raisedSubject "they" "saw") ≠ autoExtended (raisedSubject "we" "saw") ∧
      bracketed (raisedSubject "they" "saw") ≠ bracketed (raisedSubject "we" "saw") := by
  have hlexicon := verbAndNounPhrases_hasBareInfinitive "saw"
  have hmem := raisedSubject_mem_cell (show "they" ≠ "saw" by decide) ["us"]
  have hmem' := raisedSubject_mem_cell (show "we" ≠ "saw" by decide) []
  have hne : raisedSubject "they" "saw" ≠ raisedSubject "we" "saw" := by decide
  have hwords : ∀ w, some w ∈ (raisedSubject "they" "saw").words ∨
      some w ∈ (raisedSubject "we" "saw").words → w = "they" ∨ w = "we" ∨ w = "saw" := by
    intro w hw
    rw [words_raisedSubject, words_raisedSubject] at hw
    simp only [List.mem_cons, List.not_mem_nil, Option.some.injEq, or_false] at hw
    tauto
  obtain ⟨hfields, hbrackets⟩ := texts_injective hlexicon hmem hmem' fun w hw => by
    rcases hwords w hw with rfl | rfl | rfl <;> decide
  obtain ⟨hauto, hextended⟩ := hfields fun w hw => by
    rcases hwords w hw with rfl | rfl | rfl <;> decide
  have hbracketed := hbrackets fun w hw => by
    rcases hwords w hw with rfl | rfl | rfl <;> decide
  exact ⟨hlexicon, hmem, hmem', fun h => hne (hauto.mp h), fun h => hne (hextended.mp h),
    fun h => hne (hbracketed.mp h)⟩

end Categorial.Export

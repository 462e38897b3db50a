import Mathlib.Data.List.Forall2
import Mathlib.Data.List.ReduceOption
import Categorial.Lexicon.File
import Categorial.Proofs.Lexicon.Pairs
import Categorial.Proofs.Text.Fields
import Categorial.Proofs.Text.Lines

/-!
# Lexicons in lines

What is read from a file that is no JSON text, said line by line. The part of a line in front of the
first number sign has nothing but blanks, a single field, or a field and a category that may have
blanks inside. A line with a single field or a malformed category is bad. A file without bad lines
gives the lexicon of its entries in order; otherwise the first bad line is reported with its number
among all lines, whatever follows it.

* `says_iff`: every line says one thing.
* `foldlM_numberedFrom`: lines that are not bad add their entries and are not seen otherwise.
* `file_of_lines`: what is read from a file.
-/

namespace Categorial

theorem Category.text_of_parse_error {text : String} {e : ReadError}
    (h : Category.parse text = .error e) : e.text = text := by
  unfold Category.parse at h
  split at h <;> cases h
  rfl

namespace Lexicon

open Notation (Blanks)
open Text

/-! ## What a line says -/

/-- What a line can say. -/
inductive Content
  | nothing
  | word (w : List Char)
  | entry (w category : List Char)
  deriving DecidableEq

/-- The contents of a line without comment. -/
inductive Says : List Char → Content → Prop
  | nothing {s : List Char} (hs : Blanks s) : Says s .nothing
  | word {s w s' : List Char} (hs : Blanks s) (hw : IsField w) (hs' : Blanks s') :
      Says (s ++ (w ++ s')) (.word w)
  | entry {s w b c s' : List Char} (hs : Blanks s) (hw : IsField w) (hb : Blanks b) (hb' : b ≠ [])
      (hc : Trimmed c) (hc' : c ≠ []) (hs' : Blanks s') :
      Says (s ++ ((w ++ (b ++ c)) ++ s')) (.entry w c)

/-- The part of a line in front of its comment. -/
def uncommented (line : List Char) : List Char :=
  line.takeWhile (· != '#')

/-- A line with a word alone or with a malformed category. -/
inductive IsBad (line : List Char) : Prop
  | word {w : List Char} (h : Says (uncommented line) (.word w))
  | category {w c : List Char} {e : ReadError} (h : Says (uncommented line) (.entry w c))
      (he : Category.parse (String.ofList c) = .error e)

/-- What a line adds to the lexicon, if it is not bad. -/
inductive Reads (line : List Char) : Option (String × Category) → Prop
  | nothing (h : Says (uncommented line) .nothing) : Reads line none
  | entry {w c : List Char} {k : Category} (h : Says (uncommented line) (.entry w c))
      (hk : Category.parse (String.ofList c) = .ok k) : Reads line (some (String.ofList w, k))

/-- What is wrong with line number `n`, and the words for it behind the name of the file and the
number. -/
inductive Fails (file : String) (n : Nat) (line : List Char) : LexiconError → String → Prop
  | word {w : List Char} (h : Says (uncommented line) (.word w)) :
      Fails file n line (.noCategory file n (String.ofList w))
        ("expected a word and a category: " ++ String.ofList w)
  | category {w c : List Char} {e : ReadError} (h : Says (uncommented line) (.entry w c))
      (he : Category.parse (String.ofList c) = .error e) :
      Fails file n line (.category file (some n) e)
        (atPosition "invalid category" (String.ofList c) e.position)

theorem strip_of_nothing {cs : List Char} (h : Says cs .nothing) : strip cs = [] := by
  cases h with
  | nothing hs => exact strip_eq_iff.mpr ⟨cs, [], by simp, hs, Notation.blanks_nil, trimmed_nil⟩

theorem strip_of_word {cs w : List Char} (h : Says cs (.word w)) : strip cs = w ∧ IsField w := by
  cases h with
  | word hs hw hs' => exact ⟨strip_append hs hw.trimmed hs', hw⟩

theorem trimmed_append {w b c : List Char} (hw : IsField w) (hc : Trimmed c) (hc' : c ≠ []) :
    Trimmed (w ++ (b ++ c)) := by
  obtain ⟨a, v, rfl⟩ := List.exists_cons_of_ne_nil hw.ne_nil
  refine ⟨hw.trimmed.head, fun x hx => hc.last x ?_⟩
  rwa [← List.append_assoc, List.getLast?_append_of_ne_nil _ hc'] at hx

theorem strip_of_entry {cs w c : List Char} (h : Says cs (.entry w c)) :
    firstField (strip cs) = (w, c) ∧ strip cs ≠ [] ∧ IsField w ∧ c ≠ [] := by
  cases h with
  | entry hs hw hb hb' hc hc' hs' =>
    rw [strip_append hs (trimmed_append hw hc hc') hs']
    exact ⟨firstField_append hw hb hb' hc.head, by simp [hw.ne_nil], hw, hc'⟩

theorem exists_says (cs : List Char) : ∃ c, Says cs c := by
  obtain ⟨s, s', heq, hs, hs', ht⟩ := exists_eq_strip cs
  rw [heq]
  by_cases hne : strip cs = []
  · rw [hne, List.nil_append]
    exact ⟨.nothing, .nothing (List.forall_mem_append.mpr ⟨hs, hs'⟩)⟩
  · obtain hw | ⟨w, b, c, hcut, hw, hb, hb', hc', hc⟩ := isField_or_exists_append ht hne
    · exact ⟨.word _, .word hs hw hs'⟩
    · rw [hcut]
      exact ⟨.entry w c, .entry hs hw hb hb' hc hc' hs'⟩

/-- What a trimmed line says, by its first field and the text behind it. -/
def contentOf (t : List Char) : Content :=
  match firstField t with
  | ([], _) => .nothing
  | (w, []) => .word w
  | (w, c) => .entry w c

theorem Says.contentOf_eq {cs : List Char} {c : Content} (h : Says cs c) :
    contentOf (strip cs) = c := by
  cases c with
  | nothing =>
    rw [strip_of_nothing h]
    rfl
  | word w =>
    obtain ⟨hstrip, hw⟩ := strip_of_word h
    obtain ⟨a, w, rfl⟩ := List.exists_cons_of_ne_nil hw.ne_nil
    simp only [contentOf, hstrip, firstField_field hw]
  | entry w c =>
    obtain ⟨hfields, -, hw, hc⟩ := strip_of_entry h
    obtain ⟨a, w, rfl⟩ := List.exists_cons_of_ne_nil hw.ne_nil
    obtain ⟨b, c, rfl⟩ := List.exists_cons_of_ne_nil hc
    simp only [contentOf, hfields]

/-- A line says one thing only. -/
theorem says_iff {cs : List Char} {c : Content} : Says cs c ↔ contentOf (strip cs) = c := by
  constructor
  · exact Says.contentOf_eq
  · rintro rfl
    obtain ⟨c, h⟩ := exists_says cs
    rwa [h.contentOf_eq]

instance (cs : List Char) (c : Content) : Decidable (Says cs c) :=
  decidable_of_iff _ says_iff.symm

theorem Says.unique {cs : List Char} {c c' : Content} (h : Says cs c) (h' : Says cs c') :
    c = c' :=
  h.contentOf_eq.symm.trans h'.contentOf_eq

theorem Reads.not_isBad {line : List Char} {r : Option (String × Category)} (h : Reads line r) :
    ¬ IsBad line := by
  intro hbad
  cases h with
  | nothing h =>
    cases hbad with
    | word h' => cases h.unique h'
    | category h' => cases h.unique h'
  | entry h hk =>
    cases hbad with
    | word h' => cases h.unique h'
    | category h' he =>
      cases h.unique h'
      rw [hk] at he
      cases he

theorem exists_reads {line : List Char} (h : ¬ IsBad line) : ∃ r, Reads line r := by
  obtain ⟨content, hsays⟩ := exists_says (uncommented line)
  cases content with
  | nothing => exact ⟨none, .nothing hsays⟩
  | word w => exact absurd (.word hsays) h
  | entry w c =>
    cases hparse : Category.parse (String.ofList c) with
    | ok k => exact ⟨_, .entry hsays hparse⟩
    | error e => exact absurd (.category hsays hparse) h

theorem exists_fails {line : List Char} (h : IsBad line) (file : String) (n : Nat) :
    ∃ e what, Fails file n line e what := by
  cases h with
  | word h => exact ⟨_, _, .word h⟩
  | category h he => exact ⟨_, _, .category h he⟩

theorem inFile_some (file : String) (n : Nat) :
    inFile file (some n) = file ++ ":" ++ toString n ++ ": " :=
  rfl

theorem Fails.message_eq {file : String} {n : Nat} {line : List Char} {e : LexiconError}
    {what : String} (h : Fails file n line e what) :
    e.message = file ++ ":" ++ toString n ++ ": " ++ what := by
  rw [← inFile_some]
  cases h with
  | word => exact String.append_assoc
  | @category _ _ e _ he =>
    have hmessage : (LexiconError.category file (some n) e).message =
        atPosition (inFile file (some n) ++ "invalid category") e.text e.position := rfl
    rw [hmessage, Category.text_of_parse_error he]
    simp only [atPosition, String.append_assoc]

/-! ## Reading a line -/

variable {file : String} {line : List Char}

theorem addLine_of_reads {l : Lexicon} {p : String × Category} (h : Reads line (some p)) (n : Nat) :
    addLine file l (n, removeComment line) = .ok (l.add p.1 p.2) := by
  cases h with
  | @entry w c k h hk =>
    obtain ⟨hfields, -, -, hc⟩ := strip_of_entry h
    obtain ⟨a, c, rfl⟩ := List.exists_cons_of_ne_nil hc
    have hread : (CategorySource.text (String.ofList (a :: c))).resolve = .ok k := hk
    simp only [addLine, removeComment, ← uncommented.eq_1, hfields,
      changedBy_addSource_of_ok hread, Except.mapError]

theorem addLine_of_fails {n : Nat} {e : LexiconError} {what : String} (l : Lexicon)
    (h : Fails file n line e what) :
    addLine file l (n, removeComment line) = .error e := by
  cases h with
  | word h =>
    obtain ⟨hstrip, hw⟩ := strip_of_word h
    simp only [addLine, removeComment, ← uncommented.eq_1, hstrip, firstField_field hw]
  | @category _ c e h he =>
    obtain ⟨hfields, -, -, hc⟩ := strip_of_entry h
    obtain ⟨a, c, rfl⟩ := List.exists_cons_of_ne_nil hc
    have hread : (CategorySource.text (String.ofList (a :: c))).resolve = .error e := he
    simp only [addLine, removeComment, ← uncommented.eq_1, hfields,
      changedBy_addSource_of_error hread, Except.mapError]

/-! ## Reading all lines -/

/-- The lines with content, numbered from `k` on. -/
def numberedFrom (k : Nat) (lines : List (List Char)) : List (Nat × List Char) :=
  ((lines.zipIdx k).map fun (line, j) => (j, removeComment line)).filter (!·.2.isEmpty)

theorem numberedFrom_of_nil (h : removeComment line = []) (k : Nat) (lines : List (List Char)) :
    numberedFrom k (line :: lines) = numberedFrom (k + 1) lines := by
  rw [numberedFrom, List.zipIdx_cons, List.map_cons, List.filter_cons_of_neg (by simp [h])]
  rfl

theorem numberedFrom_of_ne_nil (h : removeComment line ≠ []) (k : Nat)
    (lines : List (List Char)) :
    numberedFrom k (line :: lines) = (k, removeComment line) :: numberedFrom (k + 1) lines := by
  rw [numberedFrom, List.zipIdx_cons, List.map_cons, List.filter_cons_of_pos (by simp [h])]
  rfl

/-- Lines that are not bad add their entries and are not seen otherwise; the lines behind them keep
their numbers. -/
theorem foldlM_numberedFrom {front : List (List Char)} {read : List (Option (String × Category))}
    (h : List.Forall₂ Reads front read) (file : String) (k : Nat) (behind : List (List Char))
    (l : Lexicon) :
    (numberedFrom k (front ++ behind)).foldlM (addLine file) l =
      (numberedFrom (k + front.length) behind).foldlM (addLine file)
        (read.reduceOption.foldl (fun l p => l.add p.1 p.2) l) := by
  induction h generalizing k l with
  | nil => rfl
  | @cons line r front read hr _ ih =>
    rw [List.cons_append, List.length_cons, Nat.add_comm front.length 1, ← Nat.add_assoc]
    cases r with
    | none =>
      cases hr with
      | nothing h =>
        rw [numberedFrom_of_nil (strip_of_nothing h), ih, List.reduceOption_cons_of_none]
    | some p =>
      have hne : removeComment line ≠ [] := by
        cases hr with
        | entry h _ => exact (strip_of_entry h).2.1
      rw [numberedFrom_of_ne_nil hne, List.foldlM_cons, addLine_of_reads hr,
        List.reduceOption_cons_of_some, List.foldl_cons, ← ih]
      rfl

theorem removeComment_of_fails {n : Nat} {e : LexiconError} {what : String}
    (h : Fails file n line e what) : removeComment line ≠ [] := by
  cases h with
  | word h =>
    obtain ⟨hstrip, hw⟩ := strip_of_word h
    rw [removeComment, ← uncommented, hstrip]
    exact hw.ne_nil
  | category h _ => exact (strip_of_entry h).2.1

theorem ofLines_of_reads {lines : List (List Char)} {read : List (Option (String × Category))}
    (h : List.Forall₂ Reads lines read) (file : String) :
    ofLines file (numberedLines lines) = .ok (ofPairs read.reduceOption) := by
  have hall := foldlM_numberedFrom h file 1 [] empty
  rw [List.append_nil] at hall
  exact hall

theorem ofLines_of_fails {front : List (List Char)} {read : List (Option (String × Category))}
    (hfront : List.Forall₂ Reads front read) {e : LexiconError} {what : String}
    (h : Fails file (front.length + 1) line e what) (behind : List (List Char)) :
    ofLines file (numberedLines (front ++ line :: behind)) = .error e := by
  have hall := foldlM_numberedFrom hfront file 1 (line :: behind) empty
  rw [Nat.add_comm 1, numberedFrom_of_ne_nil (removeComment_of_fails h), List.foldlM_cons,
    addLine_of_fails _ h] at hall
  exact hall

theorem exists_forall₂_reads {lines : List (List Char)} (h : ∀ line ∈ lines, ¬ IsBad line) :
    ∃ read, List.Forall₂ Reads lines read := by
  induction lines with
  | nil => exact ⟨[], .nil⟩
  | cons line lines ih =>
    rw [List.forall_mem_cons] at h
    obtain ⟨r, hr⟩ := exists_reads h.1
    obtain ⟨read, hread⟩ := ih h.2
    exact ⟨r :: read, .cons hr hread⟩

theorem ofFile_eq {bytes : ByteArray} {text : String} {lines : List (List Char)}
    (hbytes : decode? bytes = some text) (hjson : Json.parse text.toList = .error .malformed)
    (hlines : Lined text.toList lines) (file : String) :
    ofFile file bytes = (ofLines file (numberedLines lines)).mapError .mistake := by
  simp only [ofFile, ofText, hbytes, hjson, significantLines, lines_eq_iff.mpr hlines]

/-- **What is read from lines.** Let a file hold an encoded text that is malformed as JSON. If none
of its lines is bad, the lexicon of all entries of its lines in order is read. Otherwise the first
bad line decides, with its number among all lines: a field alone is reported with its text, and a
malformed category with the cause and the position at which reading it fails. -/
theorem file_of_lines {bytes : ByteArray} {text : String} {lines : List (List Char)}
    (hbytes : decode? bytes = some text) (hjson : Json.parse text.toList = .error .malformed)
    (hlines : Lined text.toList lines) (file : String) :
    ((∀ line ∈ lines, ¬ IsBad line) →
      ∃ read, List.Forall₂ Reads lines read ∧ ofFile file bytes = .ok (ofPairs read.reduceOption)) ∧
    ∀ (front : List (List Char)) (line : List Char) (behind : List (List Char)),
      lines = front ++ line :: behind → (∀ l ∈ front, ¬ IsBad l) → IsBad line →
        ∃ e what, Fails file (front.length + 1) line e what ∧
          ofFile file bytes = .error (.mistake e) ∧
          e.message = file ++ ":" ++ toString (front.length + 1) ++ ": " ++ what := by
  rw [ofFile_eq hbytes hjson hlines]
  refine ⟨fun h => ?_, ?_⟩
  · obtain ⟨read, hread⟩ := exists_forall₂_reads h
    exact ⟨read, hread, by rw [ofLines_of_reads hread]; rfl⟩
  · rintro front line behind rfl hfront hbad
    obtain ⟨read, hread⟩ := exists_forall₂_reads hfront
    obtain ⟨e, what, hfails⟩ := exists_fails hbad file (front.length + 1)
    exact ⟨e, what, hfails, by rw [ofLines_of_fails hread hfails]; rfl, hfails.message_eq⟩

/-- The carriage return with the line feed behind it ends one line, and the comment is none of the
category. -/
theorem file_of_lines_openBracket :
    decode? "I NP # one\r\nsaw (S\n".toUTF8 = some "I NP # one\r\nsaw (S\n" ∧
      Json.parse "I NP # one\r\nsaw (S\n".toList = .error .malformed ∧
      Lined "I NP # one\r\nsaw (S\n".toList ["I NP # one".toList, "saw (S".toList] ∧
      ofFile "lexicon.txt" "I NP # one\r\nsaw (S\n".toUTF8 =
        .error (.mistake (.category "lexicon.txt" (some 2) ⟨.noBracket, "(S", 2⟩)) := by
  have hbytes : decode? "I NP # one\r\nsaw (S\n".toUTF8 = some "I NP # one\r\nsaw (S\n" :=
    decode?_toUTF8 _
  have hjson : Json.parse "I NP # one\r\nsaw (S\n".toList = .error .malformed := by rfl
  have hlines : Lined "I NP # one\r\nsaw (S\n".toList ["I NP # one".toList, "saw (S".toList] :=
    lines_eq_iff.mp (by decide)
  have hone : Says (uncommented "I NP # one".toList) (.entry "I".toList "NP".toList) := by decide
  have htwo : Says (uncommented "saw (S".toList) (.entry "saw".toList "(S".toList) := by decide
  have hread : Category.parse (String.ofList "NP".toList) = .ok .np := by rfl
  have herror : Category.parse (String.ofList "(S".toList) = .error ⟨.noBracket, "(S", 2⟩ := by rfl
  obtain ⟨e, what, hfails, hfile, -⟩ := (file_of_lines hbytes hjson hlines "lexicon.txt").2
    ["I NP # one".toList] "saw (S".toList [] rfl (by simpa using (Reads.entry hone hread).not_isBad)
    (.category htwo herror)
  refine ⟨hbytes, hjson, hlines, ?_⟩
  cases hfails with
  | word h => cases htwo.unique h
  | category h he =>
    cases htwo.unique h
    rw [herror] at he
    cases he
    exact hfile

end Lexicon

end Categorial

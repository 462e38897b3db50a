import Categorial.Proofs.Category.Alphabet
import Categorial.Proofs.Category.RoundTrip
import Categorial.Proofs.Json.Refusal
import Categorial.Proofs.Lexicon.Lines

/-!
# Reading back a lexicon in lines

Words with categories, each pair on a line of its own, are read back. A category starts with a
bracket or a capital letter, so the end of such a line is foreign to JSON whatever its word is.

* `toList_written`, `reads_lineOf`: the lines of a list of pairs.
* `foreign_render`: a written category is foreign to JSON.
* `ofFile_written`: what is read from the lines of a list of pairs.
-/

namespace Categorial

namespace Lexicon

variable {pairs : List (String × Category)} {w : String}

/-! ## Lines -/

/-- The line of a word with a category. -/
def lineOf (p : String × Category) : List Char :=
  p.1.toList ++ ' ' :: p.2.render.toList

/-- The text with a line for each pair. -/
def written (pairs : List (String × Category)) : String :=
  String.join (pairs.map fun p => p.1 ++ " " ++ p.2.render ++ "\n")

/-- A word that can stand on a line, and a category that is read as itself. -/
structure Writable (p : String × Category) : Prop where
  isField : Text.IsField p.1.toList
  sign_notMem : '#' ∉ p.1.toList
  hasBareInfinitive_eq_false : p.2.hasBareInfinitive = false

theorem writable_iff {p : String × Category} : Writable p ↔
    Text.IsField p.1.toList ∧ '#' ∉ p.1.toList ∧ p.2.hasBareInfinitive = false :=
  ⟨fun ⟨hw, hsign, hc⟩ => ⟨hw, hsign, hc⟩, fun ⟨hw, hsign, hc⟩ => ⟨hw, hsign, hc⟩⟩

instance (p : String × Category) : Decidable (Writable p) :=
  decidable_of_iff _ writable_iff.symm

theorem toList_written (pairs : List (String × Category)) :
    (written pairs).toList = pairs.flatMap fun p => lineOf p ++ ['\n'] := by
  simp [written, lineOf, String.toList_join, List.flatMap_map]

variable {p : String × Category} {a : Char}

/-- A character that is no blank, nor in a word nor among those of categories. -/
theorem notMem_lineOf (hword : a ∉ p.1.toList) (hspace : a ≠ ' ')
    (ha : Category.alphabet.all (· != a) = true) : a ∉ lineOf p := by
  rw [lineOf, List.mem_append, List.mem_cons, not_or, not_or]
  refine ⟨hword, hspace, fun hrender => ?_⟩
  simpa using Category.forall_mem_render ha p.2 a hrender

theorem isLine_lineOf (h : Writable p) : Text.IsLine (lineOf p) := by
  have hblank : ∀ a, Text.isBlank a = true → a ∉ p.1.toList := by
    intro a ha hmem
    rw [h.isField.isBlank_eq_false a hmem] at ha
    cases ha
  exact ⟨notMem_lineOf (hblank '\n' rfl) (by decide) (by decide),
    notMem_lineOf (hblank '\r' rfl) (by decide) (by decide)⟩

theorem lined_written (h : ∀ p ∈ pairs, Writable p) :
    Text.Lined (written pairs).toList (pairs.map lineOf) := by
  rw [toList_written]
  induction pairs with
  | nil => exact .nil
  | cons p pairs ih =>
    rw [List.forall_mem_cons] at h
    rw [List.flatMap_cons, List.append_assoc, List.map_cons]
    exact .cons (isLine_lineOf h.1) .feed (by simp) (ih h.2)

theorem trimmed_render (c : Category) : Text.Trimmed c.render.toList := by
  have hblank : Category.alphabet.all (!Text.isBlank ·) = true := by decide
  have hall : ∀ a ∈ c.render.toList, Text.isBlank a = false := fun a ha => by
    simpa using Category.forall_mem_render hblank c a ha
  exact (Text.IsField.mk c.render_ne_nil hall).trimmed

theorem says_lineOf (h : Writable p) :
    Says (uncommented (lineOf p)) (.entry p.1.toList p.2.render.toList) := by
  have hsign : '#' ∉ lineOf p := notMem_lineOf h.sign_notMem (by decide) (by decide)
  have hline : uncommented (lineOf p) =
      [] ++ ((p.1.toList ++ ([' '] ++ p.2.render.toList)) ++ []) := by
    rw [uncommented, List.takeWhile_eq_self_iff.mpr, List.nil_append, List.append_nil]
    · rfl
    · intro a ha
      simpa using fun heq : a = '#' => hsign (heq ▸ ha)
  rw [hline]
  exact .entry Notation.blanks_nil h.isField (by simp [Notation.Blanks, Text.isBlank])
    (List.cons_ne_nil _ _) (trimmed_render p.2) p.2.render_ne_nil Notation.blanks_nil

theorem reads_lineOf (h : Writable p) : Reads (lineOf p) (some p) := by
  have hk : Category.parse (String.ofList p.2.render.toList) = .ok p.2 := by
    rw [String.ofList_toList, Category.parse_render_eq,
      Category.asRead_eq_self_iff.mpr h.hasBareInfinitive_eq_false]
  have hread := Reads.entry (says_lineOf h) hk
  rwa [String.ofList_toList] at hread

theorem forall₂_reads_lineOf (h : ∀ p ∈ pairs, Writable p) :
    List.Forall₂ Reads (pairs.map lineOf) (pairs.map some) := by
  rw [List.forall₂_map_left_iff, List.forall₂_map_right_iff, List.forall₂_same]
  exact fun p hp => reads_lineOf (h p hp)

/-! ## The lines are no JSON -/

/-- A category starts with a bracket or a capital letter. -/
theorem render_head (c : Category) :
    ∃ a u, c.render.toList = a :: u ∧ Json.Token.continuesScalar a = true ∧ a ∉ "-ntfI".toList ∧
      Text.isAsciiDigit a = false := by
  induction c with
  | var => exact ⟨'X', [], rfl, by decide⟩
  | atom b =>
    cases b with
    | bare b => cases b <;> exact ⟨_, _, rfl, by decide⟩
    | clause f => exact ⟨'S', '[' :: (f.symbol.toList ++ [']']), by cases f <;> rfl, by decide⟩
  | functor r d x ihr _ =>
    obtain ⟨a, u, hau, ha⟩ := ihr
    rw [Category.render_functor, String.toList_append, String.toList_append, Category.bracket]
    split_ifs
    · rw [String.toList_append, String.toList_append]
      exact ⟨'(', _, rfl, by decide⟩
    · exact ⟨a, _, by rw [hau]; rfl, ha⟩

theorem notMem_takeWhile_append {p : Char → Bool} {l m : List Char} (hl : a ∉ l.takeWhile p)
    (hm : a ∉ m.takeWhile p) : a ∉ (l ++ m).takeWhile p := by
  rw [List.takeWhile_append]
  split_ifs with hlength
  · rw [(List.takeWhile_prefix p).eq_of_length hlength] at hl
    exact fun h => (List.mem_append.mp h).elim hl hm
  · exact hl

/-- Small letters stand in features only, behind a square bracket, so a category does not start like
the name `NaN`. -/
theorem notMem_takeWhile_render (c : Category) :
    'a' ∉ c.render.toList.takeWhile Json.Token.continuesScalar := by
  have hbracket : ∀ (c : Category) (text : String),
      'a' ∉ text.toList.takeWhile Json.Token.continuesScalar →
        'a' ∉ (c.bracket text).toList.takeWhile Json.Token.continuesScalar := by
    intro c text h
    unfold Category.bracket
    split_ifs
    · rw [String.toList_append, String.toList_append]
      exact notMem_takeWhile_append (notMem_takeWhile_append (by decide) h) (by decide)
    · exact h
  induction c with
  | var => decide
  | atom b =>
    cases b with
    | bare b => cases b <;> decide
    | clause f => cases f <;> decide
  | functor r d x ihr ihx =>
    have hslash : 'a' ∉ d.render.toList.takeWhile Json.Token.continuesScalar := by
      obtain ⟨e, m⟩ := d
      cases e <;> cases m <;> decide
    rw [Category.render_functor, String.toList_append, String.toList_append]
    exact notMem_takeWhile_append (notMem_takeWhile_append (hbracket r _ ihr) hslash)
      (hbracket x _ ihx)

theorem foreign_render (c : Category) : Json.Token.Foreign c.render.toList := by
  obtain ⟨a, u, hau, hcontinues, hstart, hdigit⟩ := render_head c
  have hcut : c.render.toList.takeWhile Json.Token.continuesScalar =
      a :: u.takeWhile Json.Token.continuesScalar := by
    rw [hau, List.takeWhile_cons_of_pos hcontinues]
  have hname := notMem_takeWhile_render c
  rw [hcut, List.mem_cons, not_or] at hname
  refine ⟨fun h => ?_, by rw [hcut]; exact List.cons_ne_nil _ _, ?_⟩
  · have hmark : Category.alphabet.all (· != '"') = true := by decide
    simpa using Category.forall_mem_render hmark c _ h
  · rw [hcut]
    exact Json.Token.scalar_eq_unreadable hstart hdigit hname.2

/-- The first line decides that the text is no JSON. -/
theorem parse_written (pairs : List (String × Category)) :
    Json.parse (written pairs).toList = .error .malformed ∨
      ∃ n, Decimal.digitLimit < n ∧ (∃ p ∈ pairs, n ≤ p.1.toList.countP Text.isAsciiDigit) ∧
        Json.parse (written pairs).toList = .error (.tooManyDigits n) := by
  cases pairs with
  | nil => exact .inl rfl
  | cons p pairs =>
    have htext : (written (p :: pairs)).toList =
        p.1.toList ++ ' ' :: (p.2.render.toList ++ '\n' :: (written pairs).toList) := by
      simp [toList_written, lineOf]
    rw [htext]
    obtain h | ⟨n, hlimit, hle, h⟩ :=
      Json.parse_foreign (foreign_render p.2) p.1.toList (written pairs).toList
    · exact .inl h
    · exact .inr ⟨n, hlimit, ⟨p, List.mem_cons_self, hle⟩, h⟩

/-! ## Reading back -/

theorem ofFile_of_malformed (h : ∀ p ∈ pairs, Writable p)
    (hjson : Json.parse (written pairs).toList = .error .malformed) (file : String) :
    ofFile file (written pairs).toUTF8 = .ok (ofPairs pairs) := by
  have hall : (pairs.map some).reduceOption = pairs := by simp [List.reduceOption]
  rw [ofFile_eq (Text.decode?_toUTF8 _) hjson (lined_written h),
    ofLines_of_reads (forall₂_reads_lineOf h), hall]
  rfl

/-- **A lexicon in lines is read back.** Let each word be a field without a number sign, and let no
category have a bare infinitive. The lines of such pairs are never a JSON value. Unless the number
of digits of a word is beyond what is read of a whole number, the pairs themselves are read: their
words in the order of first occurrence, each with its distinct categories in this order. -/
theorem ofFile_written (h : ∀ p ∈ pairs, Writable p) (file : String) :
    (∀ v, Json.parse (written pairs).toList ≠ .ok v) ∧
      ((∀ n, Json.parse (written pairs).toList ≠ .error (.tooManyDigits n)) →
        ofFile file (written pairs).toUTF8 = .ok (ofPairs pairs)) ∧
      (∀ n, Json.parse (written pairs).toList = .error (.tooManyDigits n) →
        Decimal.digitLimit < n ∧ ∃ p ∈ pairs, n ≤ p.1.toList.countP Text.isAsciiDigit) ∧
      (ofPairs pairs).toList =
        (pairs.map (·.1)).eraseDups.map fun w => (w, categoriesOf pairs w) := by
  obtain hjson | ⟨n, hlimit, hp, hjson⟩ := parse_written pairs
  · refine ⟨by simp [hjson], fun _ => ofFile_of_malformed h hjson file, by simp [hjson],
      toList_ofPairs pairs⟩
  · refine ⟨by simp [hjson], fun hdigits => absurd hjson (hdigits n), ?_, toList_ofPairs pairs⟩
    intro m hm
    cases hjson.symm.trans hm
    exact ⟨hlimit, hp⟩

/-- The first word opens a string and the second is a number. -/
theorem ofFile_written_quoted :
    ofFile "lexicon.txt" "\"[ NP\n12 N\n\"[ S\\NP\n12 N\n".toUTF8 =
        .ok (ofPairs [("\"[", .np), ("12", .n), ("\"[", .backward .s .np), ("12", .n)]) ∧
      (ofPairs [("\"[", .np), ("12", .n), ("\"[", .backward .s .np), ("12", .n)]).toList =
        [("\"[", [.np, .backward .s .np]), ("12", [.n])] := by
  have hwritable : ∀ p ∈ [("\"[", Category.np), ("12", .n), ("\"[", .backward .s .np), ("12", .n)],
      Writable p := by decide
  have htext : written [("\"[", Category.np), ("12", .n), ("\"[", .backward .s .np), ("12", .n)] =
      "\"[ NP\n12 N\n\"[ S\\NP\n12 N\n" := by rfl
  obtain ⟨-, hread, -, hlist⟩ := ofFile_written hwritable "lexicon.txt"
  rw [htext] at hread
  have hjson : Json.parse "\"[ NP\n12 N\n\"[ S\\NP\n12 N\n".toList = .error .malformed := by rfl
  refine ⟨hread fun n hn => ?_, by rw [hlist]; decide⟩
  rw [hjson] at hn
  cases hn

end Lexicon

end Categorial

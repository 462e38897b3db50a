import Categorial.Category.Reader

/-!
# The notation of categories

The grammar of the written forms of categories, as a relation between texts and categories that
does not mention the reader. With `sp` for any run of blanks it is

    text        =  expression sp
    expression  =  term | expression sp slash modality term
    term        =  sp "(" expression sp ")" | sp atom

so that slashes associate to the left. A modality stands directly behind its slash, and an atom has
no blanks inside.

* `Notation.Denotes`: the texts of a category.
* `Derives.attach`: a term completes what stands in front of it.
* `Derives.term_head`: a term starts with a blank, a bracket or a letter of a name, so it cannot be
  taken for a modality.
-/

namespace Categorial

namespace Notation

/-! ## The grammar -/

/-- A run of blanks. -/
def Blanks (cs : List Char) : Prop :=
  ∀ c ∈ cs, Text.isBlank c = true

/-- The slashes. -/
inductive SlashSign : Char → Direction → Prop
  | forward : SlashSign '/' .forward
  | backward : SlashSign '\\' .backward

/-- The signs of the modalities; no sign at all is one of them. -/
inductive ModalitySign : List Char → Modality → Prop
  | angles : ModalitySign ['<', '>'] .orderPreserving
  | diamond : ModalitySign ['◇'] .orderPreserving
  | star : ModalitySign ['★'] .applicationOnly
  | asterisk : ModalitySign ['*'] .applicationOnly
  | times : ModalitySign ['×'] .permutationLimiting
  | letterX : ModalitySign ['x'] .permutationLimiting
  | italicI : ModalitySign ['𝑖'] .raising
  | letterI : ModalitySign ['i'] .raising
  | bare : ModalitySign [] .permissive

/-- The atoms: the variable, the symbols, and the sentence symbol with a feature. The text `S[b]` is
the subjunctive clause, so no text denotes the bare infinitive. -/
inductive AtomSign : List Char → Category → Prop
  | var : AtomSign ['X'] .var
  | symbol (b : Primitive) : AtomSign b.symbol.toList (.atom (.bare b))
  | clause (f : ClauseForm) (hf : f ≠ .bareInfinitive) :
      AtomSign ('S' :: '[' :: (f.symbol.toList ++ [']'])) (.atom (.clause f))

/-- The two kinds of phrases: a chain of terms with slashes between them, and a single term. -/
inductive Level
  | expression
  | term

/-- The phrases of a category. -/
inductive Derives : Level → List Char → Category → Prop
  | single {t : List Char} {c : Category} (ht : Derives .term t c) : Derives .expression t c
  | functor {t s m u : List Char} {r x : Category} {a : Char} {d : Direction} {k : Modality}
      (ht : Derives .expression t r) (hs : Blanks s) (ha : SlashSign a d)
      (hm : ModalitySign m k) (hu : Derives .term u x) :
      Derives .expression (t ++ (s ++ a :: (m ++ u))) (.functor r ⟨d, k⟩ x)
  | group {s t s' : List Char} {c : Category} (hs : Blanks s) (ht : Derives .expression t c)
      (hs' : Blanks s') : Derives .term (s ++ '(' :: (t ++ (s' ++ [')']))) c
  | atom {s t : List Char} {c : Category} (hs : Blanks s) (ht : AtomSign t c) :
      Derives .term (s ++ t) c

/-- The texts of a category. -/
def Denotes (cs : List Char) (c : Category) : Prop :=
  ∃ t s, cs = t ++ s ∧ Derives .expression t c ∧ Blanks s

/-! ## Signs -/

open Reading

theorem blanks_nil : Blanks [] := by
  simp [Blanks]

theorem Blanks.concat {s : List Char} {c : Char} (hs : Blanks s) (hc : Text.isBlank c = true) :
    Blanks (s ++ [c]) := by
  intro x hx
  rcases List.mem_append.mp hx with hx | hx
  · exact hs x hx
  · rwa [List.mem_singleton.mp hx]

theorem slashSign_iff {a : Char} {d : Direction} : SlashSign a d ↔ direction? a = some d := by
  constructor
  · rintro (_ | _) <;> rfl
  · intro h
    unfold direction? at h
    split at h <;> cases h
    · exact .forward
    · exact .backward

/-- The signs of one character are those that the reader knows. -/
theorem modalitySign_singleton_iff {c : Char} {k : Modality} :
    ModalitySign [c] k ↔ modality? c = some k := by
  constructor
  · rintro (_ | _) <;> rfl
  · intro h
    unfold modality? at h
    split at h <;> cases h
    · exact .diamond
    · exact .star
    · exact .asterisk
    · exact .times
    · exact .letterX
    · exact .italicI
    · exact .letterI

/-- A character that can follow a slash without a modality. -/
def StartsTerm (c : Char) : Prop :=
  Text.isBlank c = true ∨ c = '(' ∨ isNameLetter c = true

theorem StartsTerm.modality?_eq_none {c : Char} (h : StartsTerm c) : modality? c = none := by
  unfold modality?
  split <;> first | rfl | simp [StartsTerm, Text.isBlank, isNameLetter] at h

theorem StartsTerm.ne_angle {c : Char} (h : StartsTerm c) : c ≠ '<' := by
  rintro rfl
  simp [StartsTerm, Text.isBlank, isNameLetter] at h

/-! ## Names and features -/

theorem isNameLetter_of_mem_symbol {b : Primitive} {c : Char} (h : c ∈ b.symbol.toList) :
    isNameLetter c = true := by
  have hall : b.symbol.toList.all isNameLetter = true := by cases b <;> decide
  exact List.all_eq_true.mp hall c h

theorem isFeatureLetter_of_mem_symbol {f : ClauseForm} {c : Char} (h : c ∈ f.symbol.toList) :
    isFeatureLetter c = true := by
  have hall : f.symbol.toList.all isFeatureLetter = true := by cases f <;> decide
  exact List.all_eq_true.mp hall c h

theorem named?_symbol (b : Primitive) : named? b.symbol = some (.atom (.bare b)) := by
  cases b <;> rfl

theorem symbol_ne_empty (b : Primitive) : b.symbol.toList ≠ [] := by
  cases b <;> decide

/-- The names that stand for a category are atoms. -/
theorem atomSign_of_named? {letters : List Char} {c : Category}
    (h : named? (spell letters) = some c) : AtomSign letters.reverse c := by
  unfold named? at h
  split at h
  · next hX =>
    cases h
    have hletters : letters.reverse = ['X'] := by
      rw [← String.toList_ofList (l := letters.reverse), ← spell, hX]
      rfl
    exact hletters ▸ .var
  · obtain ⟨b, hb, rfl⟩ := Option.map_eq_some_iff.mp h
    have hsymbol : b.symbol = spell letters := by
      have := List.find?_some hb
      simpa using this
    have hletters : letters.reverse = b.symbol.toList := by
      rw [hsymbol, spell, String.toList_ofList]
    exact hletters ▸ .symbol b

theorem ofSymbol?_symbol {f : ClauseForm} (hf : f ≠ .bareInfinitive) :
    ClauseForm.ofSymbol? f.symbol = some f := by
  cases f <;> first | rfl | exact absurd rfl hf

/-- Features are read as their symbols, and none as the bare infinitive. -/
theorem symbol_of_ofSymbol? {s : String} {f : ClauseForm} (h : ClauseForm.ofSymbol? s = some f) :
    f.symbol = s ∧ f ≠ .bareInfinitive := by
  have hs : f.symbol = s := by
    have := List.find?_some h
    simpa using this
  refine ⟨hs, ?_⟩
  rintro rfl
  rw [← hs] at h
  exact absurd h (by decide)

/-! ## Phrases -/

theorem Derives.atom_head {t : List Char} {c : Category} (h : AtomSign t c) :
    ∃ a u, t = a :: u ∧ isNameLetter a = true := by
  cases h with
  | var => exact ⟨'X', [], rfl, rfl⟩
  | symbol b =>
    obtain ⟨a, u, hau⟩ := List.exists_cons_of_ne_nil (symbol_ne_empty b)
    exact ⟨a, u, hau, isNameLetter_of_mem_symbol (hau ▸ List.mem_cons_self)⟩
  | clause f _ => exact ⟨'S', _, rfl, rfl⟩

theorem Derives.term_head {t : List Char} {c : Category} (h : Derives .term t c) :
    ∃ a u, t = a :: u ∧ StartsTerm a := by
  cases h with
  | @group s t s' _ hs _ _ =>
    cases s with
    | nil => exact ⟨'(', _, rfl, .inr (.inl rfl)⟩
    | cons a s => exact ⟨a, _, rfl, .inl (hs a List.mem_cons_self)⟩
  | @atom s t _ hs ht =>
    cases s with
    | nil =>
      obtain ⟨a, u, rfl, ha⟩ := atom_head ht
      exact ⟨a, u, rfl, .inr (.inr ha)⟩
    | cons a s => exact ⟨a, _, rfl, .inl (hs a List.mem_cons_self)⟩

/-- What can stand in front of a term at its level: nothing, or an expression with a slash and its
modality. -/
inductive Before : Pending → List Char → Prop
  | none : Before none []
  | some {t s m : List Char} {r : Category} {a : Char} {d : Direction} {k : Modality}
      (ht : Derives .expression t r) (hs : Blanks s) (ha : SlashSign a d)
      (hm : ModalitySign m k) : Before (some (r, ⟨d, k⟩)) (t ++ (s ++ a :: m))

theorem Derives.attach {left : Pending} {u t : List Char} {x : Category} (hu : Before left u)
    (ht : Derives .term t x) : Derives .expression (u ++ t) (Reading.attach left x) := by
  cases hu with
  | none => exact .single ht
  | some hr hs ha hm =>
    rw [List.append_assoc, List.append_assoc, List.cons_append]
    exact .functor hr hs ha hm ht

end Notation

end Categorial

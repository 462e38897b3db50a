import Categorial.Category.Reader
import Categorial.Change
import Categorial.Ordered.Map

/-!
# Lexicons

A lexicon gives each word its categories, without repetition and in the order in which they were
added; the words are in the order of their first category. A word without categories is not in the
lexicon.

An addition changes the lexicon step by step, and what was changed before a refusal stays. It is
only because a text is read before the word is entered that a word never stays without categories.

* `Lexicon.addSource`, `Lexicon.add`: the steps of an addition, and what they come to.
* `get?_add`, `lookup_add`, `words_add`: adding a category to a word concerns no other word.
* `Lexicon.ofEntries`: the lexicon of a list of words with categories.
-/

namespace Categorial

/-- The categories of words. -/
structure Lexicon where
  entries : OrderedMap String (List Category)

/-- A category that is given, or to be read from a text. -/
inductive CategorySource
  | category (c : Category)
  | text (text : String)

/-- The category meant. -/
def CategorySource.resolve : CategorySource → Except ReadError Category
  | category c => .ok c
  | text t => Category.parse t

/-- The categories of a word as they are given: one of them alone, or a list. -/
inductive CategoryEntry
  | one (source : CategorySource)
  | several (sources : List CategorySource)

/-- The categories in order. One that is given alone is the list of it. -/
def CategoryEntry.sources : CategoryEntry → List CategorySource
  | one source => [source]
  | several sources => sources

namespace Lexicon

/-- The lexicon without words. -/
def empty : Lexicon :=
  ⟨.empty⟩

/-- The words in order. -/
def words (l : Lexicon) : List String :=
  l.entries.keys

/-- The number of words. -/
def size (l : Lexicon) : Nat :=
  l.entries.size

/-- The words with their categories, in order. -/
def toList (l : Lexicon) : List (String × List Category) :=
  l.entries.toList

/-- The categories of a word in the lexicon. -/
def get? (l : Lexicon) (word : String) : Option (List Category) :=
  l.entries.get? word

/-- The categories of a word, none if it is not in the lexicon. -/
def lookup (l : Lexicon) (word : String) : List Category :=
  (l.get? word).getD []

/-- Whether a word is in the lexicon. -/
def contains (l : Lexicon) (word : String) : Bool :=
  (l.get? word).isSome

/-- Enters a word without categories, unless it is there. -/
def enter (l : Lexicon) (word : String) : Lexicon :=
  if l.contains word then l else ⟨l.entries.insert word []⟩

/-- Puts a category behind those of a word. -/
def append (l : Lexicon) (word : String) (c : Category) : Lexicon :=
  ⟨l.entries.insert word (l.lookup word ++ [c])⟩

/-- Adds a category to a word, as the last one, unless the word has it. -/
def add (l : Lexicon) (word : String) (c : Category) : Lexicon :=
  let l := l.enter word
  if c ∈ l.lookup word then l else l.append word c

/-- Adds a category given in either way, and tells whether the word did not have it. -/
def addSource (word : String) (source : CategorySource) : Change ReadError Lexicon Bool := do
  let c ← source.resolve
  modify (·.enter word)
  if c ∈ (← get).lookup word then
    return false
  modify (·.append word c)
  return true

/-- Adds the categories of one word after the other. -/
def addEntries (entries : List (String × CategoryEntry)) : Change ReadError Lexicon Unit :=
  forM entries fun (word, given) => forM given.sources fun source => do
    let _ ← addSource word source

/-- The lexicon that a change makes of another one, unless it is refused. -/
def changedBy {α : Type} (l : Lexicon) (change : Change ReadError Lexicon α) :
    Except ReadError Lexicon :=
  match change.on l with
  | (.ok _, l) => .ok l
  | (.error e, _) => .error e

/-- The lexicon of a list of words with categories. -/
def ofEntries (entries : List (String × CategoryEntry)) : Except ReadError Lexicon :=
  empty.changedBy (addEntries entries)

/-- All categories, in the order of the words and without repetition. -/
def categories (l : Lexicon) : List Category :=
  (OrderedSet.empty.insertAll (l.toList.flatMap (·.2))).toList

/-- Whether two lexicons have the same words with the same categories; the order of the words does
not count. -/
def sameAs (l l' : Lexicon) : Bool :=
  l.size == l'.size && l.toList.all fun (word, cs) => l'.get? word == some cs

/-- The summary of a lexicon. -/
def summary (l : Lexicon) : String :=
  "Lexicon(" ++ toString l.size ++ " words)"

/-! ## What an addition changes -/

@[simp] theorem lookup_empty (word : String) : empty.lookup word = [] := by
  simp [lookup, get?, empty]

variable (l : Lexicon) (word word' : String) (c : Category)

theorem lookup_enter : (l.enter word).lookup word' = l.lookup word' := by
  unfold enter
  split
  · rfl
  · next hnew =>
    rw [lookup, get?, OrderedMap.get?_insert]
    split
    · next hword =>
      subst hword
      have hnone : l.entries.get? word = none := by simpa [contains, get?] using hnew
      rw [lookup, get?, hnone]
      rfl
    · rfl

/-- A word that has a category is there. -/
theorem enter_of_mem (hc : c ∈ l.lookup word) : l.enter word = l := by
  refine if_pos (Option.isSome_iff_ne_none.mpr fun hnone => ?_)
  rw [lookup, hnone] at hc
  cases hc

theorem add_of_mem (hc : c ∈ l.lookup word) : l.add word c = l := by
  rw [add, lookup_enter, if_pos hc, enter_of_mem l word c hc]

theorem add_of_notMem (hc : c ∉ l.lookup word) : l.add word c = (l.enter word).append word c := by
  rw [add, lookup_enter, if_neg hc]

theorem get?_add :
    (l.add word c).get? word' =
      if word = word' ∧ c ∉ l.lookup word then some (l.lookup word ++ [c]) else l.get? word' := by
  by_cases hc : c ∈ l.lookup word
  · rw [add_of_mem l word c hc, if_neg fun h => h.2 hc]
  · rw [add_of_notMem l word c hc, append, lookup_enter, get?, OrderedMap.get?_insert]
    by_cases hword : word = word'
    · rw [if_pos hword, if_pos ⟨hword, hc⟩]
    · rw [if_neg hword, if_neg fun h => hword h.1, enter]
      split
      · rfl
      · rw [OrderedMap.get?_insert, if_neg hword, get?]

theorem lookup_add :
    (l.add word c).lookup word' =
      if word = word' ∧ c ∉ l.lookup word then l.lookup word ++ [c] else l.lookup word' := by
  rw [lookup, get?_add]
  split <;> rfl

theorem words_add :
    (l.add word c).words =
      if c ∈ l.lookup word ∨ word ∈ l.words then l.words else l.words ++ [word] := by
  by_cases hc : c ∈ l.lookup word
  · rw [add_of_mem l word c hc, if_pos (.inl hc)]
  · rw [add_of_notMem l word c hc, append, words, OrderedMap.keys_insert]
    simp only [hc, false_or, words, enter]
    -- a word that is entered first has its place by then
    split
    · rfl
    · rw [OrderedMap.keys_insert]
      by_cases hword : word ∈ l.entries.keys <;> simp [hword]

/-! ## The steps of an addition -/

variable {source : CategorySource} {c}

/-- A text that cannot be read is refused before the word is entered. -/
theorem addSource_on_of_error {e : ReadError} (h : source.resolve = .error e) :
    (addSource word source).on l = (.error e, l) := by
  simp only [addSource, Change.on_bind, Change.on_lift, h]

theorem addSource_on_of_ok (h : source.resolve = .ok c) :
    (addSource word source).on l = (.ok (!(l.lookup word).contains c), l.add word c) := by
  simp only [addSource, Change.on_bind, Change.on_lift, h, Change.on_modify, Change.on_get,
    lookup_enter]
  by_cases hc : c ∈ l.lookup word
  · rw [if_pos hc, add_of_mem l word c hc, enter_of_mem l word c hc, List.contains_iff_mem.mpr hc]
    rfl
  · have hnew : (l.lookup word).contains c = false := by simpa using hc
    rw [if_neg hc, add_of_notMem l word c hc, hnew]
    rfl

end Lexicon

/-- A table of categories as it is given, with repetitions and empty rows. -/
def listedCategories (table : List (String × List Category)) (word : String) : List Category :=
  ((table.find? (·.1 == word)).map (·.2)).getD []

end Categorial

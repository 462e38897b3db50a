import Mathlib.Data.List.Basic
import Mathlib.Data.List.Induction
import Categorial.Lexicon.Basic

/-!
# Lexicons of pairs

Every lexicon comes about by adding pairs of a word and a category one after the other. What it
holds can be said from the list of these pairs alone: the words in the order of first occurrence,
and for each word the distinct categories of its pairs in this order. A category that is given as a
text is part of this list if it can be read.

* `get?_ofPairs`, `words_ofPairs`, `toList_ofPairs`: the lexicon of a list of pairs.
* `categories_eq`: all categories of a lexicon.
* `ofEntries_eq_ok_iff`: the lexicon of words with categories given in either way.
-/

namespace Categorial

namespace Lexicon

variable {pairs : List (String × Category)} {w : String}

/-! ## Pairs -/

/-- The lexicon to which categories have been added one after the other. -/
def ofPairs (pairs : List (String × Category)) : Lexicon :=
  pairs.foldl (fun l p => l.add p.1 p.2) empty

/-- The distinct categories of a word in the order of their first occurrence. -/
def categoriesOf (pairs : List (String × Category)) (w : String) : List Category :=
  ((pairs.filter (·.1 == w)).map (·.2)).eraseDups

theorem ofPairs_concat (pairs : List (String × Category)) (p : String × Category) :
    ofPairs (pairs ++ [p]) = (ofPairs pairs).add p.1 p.2 := by
  rw [ofPairs, List.foldl_append]
  rfl

theorem categoriesOf_concat (pairs : List (String × Category)) (p : String × Category)
    (w : String) : categoriesOf (pairs ++ [p]) w =
      if p.1 = w ∧ p.2 ∉ categoriesOf pairs p.1 then categoriesOf pairs p.1 ++ [p.2]
      else categoriesOf pairs w := by
  by_cases hw : p.1 = w
  · subst hw
    have hfilter : [p].filter (·.1 == p.1) = [p] := List.filter_cons_of_pos (by simp)
    rw [categoriesOf, List.filter_append, hfilter, List.map_append, List.map_singleton,
      Distinct.eraseDups_concat]
    simp only [categoriesOf, List.mem_eraseDups, true_and]
    rw [ite_not]
  · rw [if_neg (fun h => hw h.1), categoriesOf, List.filter_append,
      List.filter_cons_of_neg (by simpa using hw), List.filter_nil, List.append_nil, categoriesOf]

theorem mem_words_of_mem_categoriesOf {c : Category} (h : c ∈ categoriesOf pairs w) :
    w ∈ pairs.map (·.1) := by
  rw [categoriesOf, List.mem_eraseDups] at h
  obtain ⟨p, hp, -⟩ := List.mem_map.mp h
  obtain ⟨hp, hw⟩ := List.mem_filter.mp hp
  exact List.mem_map.mpr ⟨p, hp, eq_of_beq hw⟩

theorem categoriesOf_ne_nil (h : w ∈ pairs.map (·.1)) : categoriesOf pairs w ≠ [] := by
  obtain ⟨p, hp, rfl⟩ := List.mem_map.mp h
  have hc : p.2 ∈ categoriesOf pairs p.1 :=
    List.mem_eraseDups.mpr (List.mem_map_of_mem (List.mem_filter.mpr ⟨hp, beq_self_eq_true p.1⟩))
  exact List.ne_nil_of_mem hc

/-! ## The lexicon of a list of pairs -/

theorem lookup_ofPairs (pairs : List (String × Category)) (w : String) :
    (ofPairs pairs).lookup w = categoriesOf pairs w := by
  induction pairs using List.reverseRecOn generalizing w with
  | nil => exact lookup_empty w
  | append_singleton pairs p ih => rw [ofPairs_concat, lookup_add, categoriesOf_concat, ih, ih]

theorem get?_ofPairs (pairs : List (String × Category)) (w : String) :
    (ofPairs pairs).get? w =
      if w ∈ pairs.map (·.1) then some (categoriesOf pairs w) else none := by
  induction pairs using List.reverseRecOn with
  | nil => exact OrderedMap.get?_empty w
  | append_singleton pairs p ih =>
    rw [ofPairs_concat, get?_add, lookup_ofPairs, categoriesOf_concat, ih, List.map_append,
      List.map_singleton]
    by_cases hw : p.1 = w
    · subst hw
      by_cases hp : p.2 ∈ categoriesOf pairs p.1
      · simp [hp, mem_words_of_mem_categoriesOf hp]
      · simp [hp]
    · simp only [hw, false_and, if_false, List.mem_append, List.mem_singleton, Ne.symm hw, or_false]

theorem words_ofPairs (pairs : List (String × Category)) :
    (ofPairs pairs).words = (pairs.map (·.1)).eraseDups := by
  induction pairs using List.reverseRecOn with
  | nil => rfl
  | append_singleton pairs p ih =>
    have hmem : p.2 ∈ categoriesOf pairs p.1 ∨ p.1 ∈ pairs.map (·.1) ↔ p.1 ∈ pairs.map (·.1) :=
      or_iff_right_of_imp mem_words_of_mem_categoriesOf
    rw [ofPairs_concat, words_add, lookup_ofPairs, ih, List.map_append, List.map_singleton,
      Distinct.eraseDups_concat]
    simp only [List.mem_eraseDups, hmem]

theorem toList_ofPairs (pairs : List (String × Category)) :
    (ofPairs pairs).toList =
      (pairs.map (·.1)).eraseDups.map fun w => (w, categoriesOf pairs w) := by
  have hget : ∀ w ∈ (ofPairs pairs).words,
      ((ofPairs pairs).get? w).map (w, ·) = some (w, categoriesOf pairs w) := by
    intro w hw
    rw [words_ofPairs, List.mem_eraseDups] at hw
    rw [get?_ofPairs, if_pos hw, Option.map_some]
  calc (ofPairs pairs).toList
      = (ofPairs pairs).words.filterMap fun w => ((ofPairs pairs).get? w).map (w, ·) := rfl
    _ = (ofPairs pairs).words.filterMap fun w => some (w, categoriesOf pairs w) :=
        List.filterMap_congr hget
    _ = _ := by rw [words_ofPairs, List.filterMap_eq_map']

theorem categories_eq (l : Lexicon) : l.categories = (l.toList.flatMap (·.2)).eraseDups := by
  rw [categories, OrderedSet.toList_insertAll_eq_append, OrderedSet.toList_empty, List.nil_append,
    List.removeAll_nil]

/-! ## Categories given in either way -/

/-- The words with one category each that words with their categories come to. -/
def additions (entries : List (String × CategoryEntry)) : List (String × CategorySource) :=
  entries.flatMap fun entry => entry.2.sources.map (entry.1, ·)

/-- The pairs of the categories that can be read. -/
def readable (adds : List (String × CategorySource)) : List (String × Category) :=
  adds.filterMap fun a => a.2.resolve.toOption.map (a.1, ·)

theorem readable_nil : readable [] = [] :=
  rfl

theorem readable_append (adds adds' : List (String × CategorySource)) :
    readable (adds ++ adds') = readable adds ++ readable adds' :=
  List.filterMap_append

variable {source : CategorySource} {c : Category} {e : ReadError}

theorem readable_cons_of_ok (h : source.resolve = .ok c) (w : String)
    (adds : List (String × CategorySource)) :
    readable ((w, source) :: adds) = (w, c) :: readable adds :=
  List.filterMap_cons_some (by rw [h]; rfl)

theorem readable_cons_of_error (h : source.resolve = .error e) (w : String)
    (adds : List (String × CategorySource)) :
    readable ((w, source) :: adds) = readable adds :=
  List.filterMap_cons_none (by rw [h]; rfl)

theorem changedBy_addSource_of_ok (h : source.resolve = .ok c) (l : Lexicon) (w : String) :
    l.changedBy (addSource w source) = .ok (l.add w c) := by
  rw [changedBy, addSource_on_of_ok l w h]

theorem changedBy_addSource_of_error (h : source.resolve = .error e) (l : Lexicon) (w : String) :
    l.changedBy (addSource w source) = .error e := by
  rw [changedBy, addSource_on_of_error l w h]

/-- Adds one category after the other, each to its word. -/
def addAll (adds : List (String × CategorySource)) : Change ReadError Lexicon Unit :=
  forM adds fun a => do
    let _ ← addSource a.1 a.2

theorem addEntries_eq (entries : List (String × CategoryEntry)) :
    addEntries entries = addAll (additions entries) := by
  induction entries with
  | nil => rfl
  | cons entry entries ih =>
    rw [additions, List.flatMap_cons, addAll, List.forM_append, List.forM_map, ← additions,
      ← addAll, ← ih]
    rfl

/-- The first category that cannot be read is the end of the additions. -/
theorem changedBy_addAll_cons_of_error {a : String × CategorySource}
    (h : a.2.resolve = .error e) (adds : List (String × CategorySource)) (l : Lexicon) :
    l.changedBy (addAll (a :: adds)) = .error e := by
  simp only [changedBy, addAll, List.forM_cons, Change.on_bind, addSource_on_of_error l a.1 h]

theorem changedBy_addAll_cons_of_ok {a : String × CategorySource} (h : a.2.resolve = .ok c)
    (adds : List (String × CategorySource)) (l : Lexicon) :
    l.changedBy (addAll (a :: adds)) = (l.add a.1 c).changedBy (addAll adds) := by
  simp only [changedBy, addAll, List.forM_cons, Change.on_bind, addSource_on_of_ok l a.1 h,
    Change.on_pure]

/-- The additions succeed if every category can be read, and then add the pairs. -/
theorem changedBy_addAll_eq_ok_iff {adds : List (String × CategorySource)} {l l' : Lexicon} :
    l.changedBy (addAll adds) = .ok l' ↔
      (∀ a ∈ adds, ∃ c, a.2.resolve = .ok c) ∧
        l' = (readable adds).foldl (fun l p => l.add p.1 p.2) l := by
  induction adds generalizing l with
  | nil => simp [readable, addAll, changedBy, eq_comm]
  | cons a adds ih =>
    rw [List.forall_mem_cons]
    cases ha : a.2.resolve with
    | error e => simp [changedBy_addAll_cons_of_error ha]
    | ok c =>
      rw [changedBy_addAll_cons_of_ok ha, readable_cons_of_ok ha a.1, List.foldl_cons]
      exact ih.trans (by simp)

theorem ofEntries_eq_ok_iff {entries : List (String × CategoryEntry)} {l : Lexicon} :
    ofEntries entries = .ok l ↔
      (∀ a ∈ additions entries, ∃ c, a.2.resolve = .ok c) ∧
        l = ofPairs (readable (additions entries)) := by
  rw [ofEntries, addEntries_eq]
  exact changedBy_addAll_eq_ok_iff

end Lexicon

end Categorial

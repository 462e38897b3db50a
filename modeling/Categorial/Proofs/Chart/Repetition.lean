import Categorial.Chart.Greedy
import Categorial.Proofs.Chart.Filling
import Categorial.Proofs.Lexicon.Pairs

/-!
# Repetitions and empty rows

The parsers read the lexicon only when they fill the cells of single words, and a cell takes each
derivation once. So two lexicons that give the words of a sentence the same distinct categories in
the same order lead to the same chart, and everything that is read off the chart is the same.

A table of categories and the lexicon that is made of it are two such lexicons: repetitions are left
out by the chart in one case and by the lexicon in the other, and a word with an empty row is as
good as a word that is not there.

* `Chart.ofWords_congr`: the cells of single words.
* `Lexicon.lookup_ofTable`: the lexicon of a table.
* `repeated_entries_harmless`: both parsers on a table and on its lexicon.
-/

namespace Categorial

namespace Chart

variable {lexicon lexicon' : LexicalEntries} {words : List String}

/-- The words have the same distinct categories in the same order. -/
def Agree (lexicon lexicon' : LexicalEntries) (words : List String) : Prop :=
  ∀ w ∈ words, (lexicon w).eraseDups = (lexicon' w).eraseDups

theorem insertAll_eraseDups (c : Chart) (span : Span) (ds : List Derivation) :
    c.insertAll span ds.eraseDups = c.insertAll span ds := by
  rw [insertAll, insertAll, OrderedSet.insertAll_eraseDups]

theorem fillWords_congr (h : Agree lexicon lexicon' words) (start : Nat) (c : Chart) :
    fillWords lexicon start words c = fillWords lexicon' start words c := by
  induction words generalizing start c with
  | nil => rfl
  | cons w words ih =>
    obtain ⟨hw, hwords⟩ := List.forall_mem_cons.mp h
    have hleaves : (leavesOf lexicon w).eraseDups = (leavesOf lexicon' w).eraseDups := by
      rw [eraseDups_leavesOf, eraseDups_leavesOf, cutDerivations, cutDerivations, hw]
    have hcell : c.insertAll (start, start + 1) (leavesOf lexicon w) =
        c.insertAll (start, start + 1) (leavesOf lexicon' w) := by
      rw [← insertAll_eraseDups, hleaves, insertAll_eraseDups]
    rw [fillWords, fillWords, hcell, ih hwords]

theorem ofWords_congr (h : Agree lexicon lexicon' words) :
    ofWords lexicon words = ofWords lexicon' words :=
  fillWords_congr h 0 (empty words.length)

theorem unknownWords_congr (h : Agree lexicon lexicon' words) :
    unknownWords lexicon words = unknownWords lexicon' words := by
  have hnil : ∀ as : List Category, as.eraseDups = [] ↔ as = [] := by
    intro as
    cases as <;> simp [List.eraseDups_cons]
  have hfilter : words.filter (fun w => (lexicon w).isEmpty) =
      words.filter fun w => (lexicon' w).isEmpty := by
    refine List.filter_congr fun w hw => ?_
    rw [Bool.eq_iff_iff, List.isEmpty_iff, List.isEmpty_iff, ← hnil, h w hw, hnil]
  rw [unknownWords, unknownWords, hfilter]

end Chart

open Chart

theorem parse_congr {lexicon lexicon' : LexicalEntries} {words : List String}
    (h : Agree lexicon lexicon' words) : parse lexicon words = parse lexicon' words := by
  rw [parse, parse, ofSentence, ofSentence, ofWords_congr h]

theorem parseGreedy_congr {lexicon lexicon' : LexicalEntries} {words : List String}
    (h : Agree lexicon lexicon' words) :
    parseGreedy lexicon words = parseGreedy lexicon' words := by
  rw [parseGreedy, parseGreedy, greedy, greedy, ofWords_congr h]

theorem parseEvents_congr {lexicon lexicon' : LexicalEntries} {words : List String}
    (h : Agree lexicon lexicon' words) :
    parseEvents lexicon words = parseEvents lexicon' words := by
  rw [parseEvents, parseEvents, ofSentence, ofSentence, ofWords_congr h, unknownWords_congr h]

theorem greedyEvents_congr {lexicon lexicon' : LexicalEntries} {words : List String}
    (h : Agree lexicon lexicon' words) :
    greedyEvents lexicon words = greedyEvents lexicon' words := by
  rw [greedyEvents, greedyEvents, greedy, greedy, ofWords_congr h, unknownWords_congr h]

namespace Lexicon

variable {table : List (String × List Category)}

/-- The words of a table with their categories, each given as such. -/
def entriesOf (table : List (String × List Category)) : List (String × CategoryEntry) :=
  table.map fun row => (row.1, .several (row.2.map .category))

/-- The pairs of the words of a table with one of their categories each. -/
def pairsOf (table : List (String × List Category)) : List (String × Category) :=
  table.flatMap fun row => row.2.map (row.1, ·)

theorem additions_entriesOf (table : List (String × List Category)) :
    additions (entriesOf table) = (pairsOf table).map fun p => (p.1, .category p.2) := by
  simp only [additions, entriesOf, CategoryEntry.sources, pairsOf, List.flatMap_map,
    List.map_flatMap, List.map_map, Function.comp_def]

theorem ofEntries_entriesOf (table : List (String × List Category)) :
    ofEntries (entriesOf table) = .ok (ofPairs (pairsOf table)) := by
  rw [ofEntries_eq_ok_iff, additions_entriesOf]
  constructor
  · rw [List.forall_mem_map]
    exact fun p _ => ⟨p.2, rfl⟩
  · rw [readable, List.filterMap_map]
    exact congrArg ofPairs (List.filterMap_some).symm

/-- The row of a word has all pairs of the word, since no word has two rows. -/
theorem filter_pairsOf (hkeys : (table.map (·.1)).Nodup) (w : String) :
    ((pairsOf table).filter (·.1 == w)).map (·.2) = listedCategories table w := by
  induction table with
  | nil => rfl
  | cons row table ih =>
    obtain ⟨hrow, htable⟩ := List.nodup_cons.mp hkeys
    rw [pairsOf, List.flatMap_cons, ← pairsOf, List.filter_append, List.map_append]
    by_cases hw : row.1 = w
    · subst hw
      have hrest : (pairsOf table).filter (·.1 == row.1) = [] := by
        rw [List.filter_eq_nil_iff]
        intro p hp heq
        obtain ⟨row', hrow', hp⟩ := List.mem_flatMap.mp hp
        obtain ⟨c, -, rfl⟩ := List.mem_map.mp hp
        exact hrow (List.mem_map.mpr ⟨row', hrow', eq_of_beq heq⟩)
      rw [hrest]
      simp [listedCategories, List.filter_map, Function.comp_def]
    · rw [ih htable]
      simp [listedCategories, List.filter_map, Function.comp_def, hw]

theorem lookup_ofTable (hkeys : (table.map (·.1)).Nodup) (w : String) :
    (ofPairs (pairsOf table)).lookup w = (listedCategories table w).eraseDups := by
  rw [lookup_ofPairs, categoriesOf, filter_pairsOf hkeys]

theorem agree_lookup (hkeys : (table.map (·.1)).Nodup) (words : List String) :
    Agree (ofPairs (pairsOf table)).lookup (listedCategories table) words := by
  intro w _
  rw [lookup_ofTable hkeys, Distinct.eraseDups_of_nodup (Distinct.nodup_eraseDups _)]

end Lexicon

open Lexicon

/-- **Repeated and empty entries are harmless.** A table with one row for each word makes a lexicon,
and on the table and on the lexicon both parsers do the same on every sentence: they find the same
derivations in the same order, or the same derivation, and report the same. -/
theorem repeated_entries_harmless {table : List (String × List Category)}
    (hkeys : (table.map (·.1)).Nodup) :
    ∃ l, ofEntries (table.map fun row => (row.1, .several (row.2.map .category))) = .ok l ∧
      ∀ words, parse l.lookup words = parse (listedCategories table) words ∧
        parseGreedy l.lookup words = parseGreedy (listedCategories table) words ∧
        parseEvents l.lookup words = parseEvents (listedCategories table) words ∧
        greedyEvents l.lookup words = greedyEvents (listedCategories table) words := by
  refine ⟨_, ofEntries_entriesOf table, fun words => ?_⟩
  have hagree := agree_lookup hkeys words
  exact ⟨parse_congr hagree, parseGreedy_congr hagree, parseEvents_congr hagree,
    greedyEvents_congr hagree⟩

/-- A word without categories, and words with repeated ones. -/
def repetitiveTable : List (String × List Category) :=
  [("oh", []), ("they", [.np, .np]), ("slept", [.backward .s .np, .np, .backward .s .np])]

theorem repeated_entries_harmless_slept :
    (repetitiveTable.map (·.1)).Nodup ∧
      ∃ l, ofEntries (repetitiveTable.map fun row => (row.1, .several (row.2.map .category))) =
          .ok l ∧
        .node .backwardApply (.leaf .np (some "they")) (.leaf (.backward .s .np) (some "slept")) ∈
          parse l.lookup ["they", "slept"] ∧
        parseGreedy l.lookup ["oh", "they", "slept"] =
          parseGreedy (listedCategories repetitiveTable) ["oh", "they", "slept"] := by
  have hkeys : (repetitiveTable.map (·.1)).Nodup := by decide
  have hthey : .np ∈ listedCategories repetitiveTable "they" := by decide
  have hslept : .backward .s .np ∈ listedCategories repetitiveTable "slept" := by decide
  obtain ⟨l, hl, hsame⟩ := repeated_entries_harmless hkeys
  refine ⟨hkeys, l, hl, ?_, (hsame ["oh", "they", "slept"]).2.1⟩
  rw [(hsame ["they", "slept"]).1, mem_parse_iff]
  exact .node (.leaf hthey) (.leaf hslept) rfl rfl (by decide) (by decide)

end Categorial

import Categorial.Proofs.Chart.Filling

/-!
# Parsing as recursion

The chart and the cache that all its spans share are only a way of computing the parse. What they
compute obeys the equations of a recursion over the sentence that has neither: the derivations of a
longer sentence are those above a derivation of a first part and one of the rest. The order is part
of these equations.

* `Chart.cell_eq_parse`: a cell holds the parse of its words, whatever stands around them.
* `Chart.cell_stateAfter`: when the turn of a span comes, all that is found for it enters its cell.
* `Chart.lookup_cacheAfter`: the cache is true at every moment.
* `parse_eq_recursion`: the equations.
-/

namespace Categorial

open Categorial.Derivation

namespace Chart

variable (lexicon : LexicalEntries)

theorem cell_eq_parse {words : List String} {span : Span} (hspan : span.1 < span.2)
    (hsize : span.2 ≤ words.length) :
    (ofSentence lexicon words).cell span = parse lexicon (slice words span) := by
  rw [cell_ofSentence lexicon hspan hsize, parse_eq_cutDerivations]

/-! ## The chart and the cache on the way -/

/-- The chart and the cache of a sentence behind the turns of the given spans. -/
def stateAfter (words : List String) (done : List Span) : Chart × Cache :=
  (done.foldlM fillSpan (ofWords lexicon words)).run .empty

theorem stateAfter_spans (words : List String) :
    (stateAfter lexicon words (spans words.length)).1 = ofSentence lexicon words :=
  rfl

/-- What is found for the span whose turn comes behind those of the given spans. -/
def foundAfter (words : List String) (done : List Span) (span : Span) : List Derivation :=
  let s := stateAfter lexicon words done
  ((joinSplits s.1 span).run s.2).1

theorem stateAfter_spec (words : List String) (done : List Span) :
    (stateAfter lexicon words done).1 = done.foldl joinSpan (ofWords lexicon words) ∧
      (stateAfter lexicon words done).2.Valid :=
  Cache.gives_foldlM gives_fillSpan _ _ _ Cache.valid_empty

theorem foundAfter_eq (words : List String) (done : List Span) (span : Span) :
    foundAfter lexicon words done span =
      joinedSpan (done.foldl joinSpan (ofWords lexicon words)) span := by
  obtain ⟨hchart, hvalid⟩ := stateAfter_spec lexicon words done
  rw [foundAfter, (gives_joinSplits _ span _ hvalid).1, hchart]

theorem cell_stateAfter {words : List String} {pre post : List Span} {span : Span}
    (hspans : spans words.length = pre ++ span :: post) :
    (stateAfter lexicon words (pre ++ [span])).1.cell span =
      foundAfter lexicon words pre span := by
  rw [(stateAfter_spec lexicon words _).1, List.foldl_concat, foundAfter_eq,
    cell_joinSpan hspans (filled_before lexicon hspans), if_pos rfl]

/-- The cache when, behind the turns of the given spans, the given pairs have been joined. -/
def cacheAfter (words : List String) (done : List Span)
    (joined : List (Derivation × Derivation)) : Cache :=
  ((joined.mapM fun p => cachedParents p.1 p.2).run (stateAfter lexicon words done).2).2

theorem lookup_cacheAfter (words : List String) (done : List Span)
    (joined : List (Derivation × Derivation)) (x y : Category) :
    ((cacheAfter lexicon words done joined).lookup x y).1.2 = inferences x y := by
  have hstate := (stateAfter_spec lexicon words done).2
  have hgives : Cache.Gives (joined.mapM fun p => cachedParents p.1 p.2)
      (joined.map fun p => parents p.1 p.2) :=
    Cache.gives_mapM (fun p => gives_cachedParents p.1 p.2) joined
  have hvalid : (cacheAfter lexicon words done joined).Valid := (hgives _ hstate).2
  exact (Cache.lookup_spec hvalid x y).1

end Chart

/-! ## The equations -/

theorem parse_singleton (lexicon : LexicalEntries) (w : String) :
    parse lexicon [w] = (lexicon w).eraseDups.map fun c => .leaf c (some w) := by
  rw [parse_eq_cutDerivations, cutDerivations]

theorem parse_eq_flatMap (lexicon : LexicalEntries) {words : List String}
    (h : 2 ≤ words.length) :
    parse lexicon words = (List.range' 1 (words.length - 1)).flatMap fun k =>
      (parse lexicon (words.take k)).flatMap fun left =>
        (parse lexicon (words.drop k)).flatMap fun right => parents left right := by
  have hcuts : List.range' 1 (words.length - 1) =
      (List.range (words.length - 1)).map (· + 1) := by
    rw [List.range'_eq_map_range]
    exact List.map_congr_left fun k _ => Nat.add_comm 1 k
  rw [parse_eq_cutDerivations, Chart.cutDerivations_eq_flatMap lexicon h, hcuts,
    List.flatMap_map]
  simp only [joinAll, parse_eq_cutDerivations]

open Chart in
/-- **Chart and cache are only an optimisation.** A parse is what recursion over the parts of the
sentence gives, as a list and in this order: nothing for no word, the distinct categories of a
single word, and for several words the derivations above the parses of both parts at every cut. So
each cell of the chart depends on its own words only; whatever is found for a span when its turn
comes enters the cell of the span, nothing of it being dropped as a repetition; and the cache,
wherever in the course of a turn it is asked, answers with what the rules make of the very pair in
question. -/
theorem parse_eq_recursion (lexicon : LexicalEntries) :
    parse lexicon [] = [] ∧
      (∀ w, parse lexicon [w] = (lexicon w).eraseDups.map fun c => .leaf c (some w)) ∧
      (∀ words : List String, 2 ≤ words.length →
        parse lexicon words = (List.range' 1 (words.length - 1)).flatMap fun k =>
          (parse lexicon (words.take k)).flatMap fun left =>
            (parse lexicon (words.drop k)).flatMap fun right => parents left right) ∧
      (∀ (words : List String) (i j : Nat), i < j → j ≤ words.length →
        (ofSentence lexicon words).cell (i, j) = parse lexicon ((words.drop i).take (j - i))) ∧
      (∀ (words : List String) (pre post : List Span) (span : Span),
        spans words.length = pre ++ span :: post →
          (stateAfter lexicon words (pre ++ [span])).1.cell span =
            foundAfter lexicon words pre span) ∧
      ∀ (words : List String) (done : List Span) (joined : List (Derivation × Derivation))
        (x y : Category),
        ((cacheAfter lexicon words done joined).lookup x y).1.2 = inferences x y := by
  refine ⟨?_, parse_singleton lexicon, ?_, ?_, ?_, lookup_cacheAfter lexicon⟩
  · rw [parse_eq_cutDerivations, cutDerivations]
  · intro words hlen
    exact parse_eq_flatMap lexicon hlen
  · intro words i j hij hj
    exact cell_eq_parse lexicon hij hj
  · intro words pre post span hspans
    exact cell_stateAfter lexicon hspans

end Categorial

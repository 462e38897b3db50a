import Categorial.Proofs.Chart.Cuts
import Categorial.Proofs.Grammar.Cache

/-!
# Filling a chart

The chart of a sentence is filled span by span with a cache that all spans share. Without the cache
this is a fold of `Chart.joinSpan` over the spans (`ofSentence_eq_foldl`). The order of the spans is
such that both parts of a span stand in front of it (`mem_before_of_lt`), so every cell is filled
from cells that are complete, and holds the derivations of its words and nothing else.

* `cell_ofSentence`: the cell of a span holds the derivations found by cutting its words.
* `parse_eq_cutDerivations`: so does the whole parse, in this order.
* `mem_parse_iff`, `nodup_parse`: what the parse consists of.
-/

namespace Categorial

open Categorial.Derivation

namespace Chart

/-! ## The chart without a cache -/

/-- The derivations of a span from the cells of its parts. -/
def joinedSpan (c : Chart) (span : Span) : List Derivation :=
  (splits span).flatMap fun k => joinAll (c.cell (span.1, k)) (c.cell (k, span.2))

/-- The chart with one more cell filled. -/
def joinSpan (c : Chart) (span : Span) : Chart :=
  c.insertAll span (joinedSpan c span)

theorem gives_joinCells (lefts rights : List Derivation) :
    Cache.Gives (joinCells lefts rights) (joinAll lefts rights) := by
  have hrow : ∀ left, Cache.Gives
      (do let row ← rights.mapM fun right => cachedParents left right
          return row.flatten)
      (rights.flatMap fun right => parents left right) := by
    intro left
    rw [List.flatMap_def]
    exact Cache.gives_bind (Cache.gives_mapM (gives_cachedParents left) rights)
      (Cache.gives_pure _)
  unfold joinCells joinAll
  rw [List.flatMap_def]
  exact Cache.gives_bind (Cache.gives_mapM hrow lefts) (Cache.gives_pure _)

theorem gives_joinSplits (c : Chart) (span : Span) :
    Cache.Gives (joinSplits c span) (joinedSpan c span) := by
  unfold joinSplits joinedSpan
  rw [List.flatMap_def]
  exact Cache.gives_bind (Cache.gives_mapM (fun k => gives_joinCells _ _) _)
    (Cache.gives_pure _)

theorem gives_fillSpan (c : Chart) (span : Span) :
    Cache.Gives (fillSpan c span) (joinSpan c span) :=
  Cache.gives_bind (gives_joinSplits c span) (Cache.gives_pure _)

theorem ofSentence_eq_foldl (lexicon : LexicalEntries) (words : List String) :
    ofSentence lexicon words = (spans words.length).foldl joinSpan (ofWords lexicon words) :=
  (Cache.gives_foldlM gives_fillSpan _ _ _ Cache.valid_empty).1

/-! ## The order of the spans -/

/-- The number of words of a span. -/
def breadth (span : Span) : Nat :=
  span.2 - span.1

theorem mem_spans_iff {size : Nat} {span : Span} :
    span ∈ spans size ↔ span.1 + 2 ≤ span.2 ∧ span.2 ≤ size := by
  obtain ⟨i, j⟩ := span
  simp only [spans, List.mem_flatMap, List.mem_map, List.mem_range, Prod.mk.injEq]
  constructor
  · rintro ⟨m, hm, i', hi', rfl, rfl⟩
    omega
  · rintro ⟨hij, hj⟩
    exact ⟨j - i - 2, by omega, i, by omega, rfl, by omega⟩

theorem mem_splits_iff {span : Span} {k : Nat} : k ∈ splits span ↔ span.1 < k ∧ k < span.2 := by
  simp only [splits, List.mem_map, List.mem_range]
  constructor
  · rintro ⟨m, hm, rfl⟩
    omega
  · rintro ⟨hi, hj⟩
    exact ⟨k - span.1 - 1, by omega, by omega⟩

/-- No span comes twice, and none comes behind a longer one. -/
theorem pairwise_spans (size : Nat) :
    (spans size).Pairwise fun a b => breadth a ≤ breadth b ∧ a ≠ b := by
  refine List.pairwise_flatMap.mpr ⟨fun m _ => ?_, ?_⟩
  · refine List.pairwise_map.mpr (List.pairwise_lt_range.imp fun {i i'} hlt => ⟨?_, ?_⟩)
    · simp only [breadth]
      omega
    · intro h
      have := congrArg Prod.fst h
      simp only at this
      omega
  · refine List.pairwise_lt_range.imp fun {m m'} hlt a ha b hb => ?_
    obtain ⟨i, -, rfl⟩ := List.mem_map.mp ha
    obtain ⟨i', -, rfl⟩ := List.mem_map.mp hb
    refine ⟨by simp only [breadth]; omega, fun h => ?_⟩
    have h1 := congrArg Prod.fst h
    have h2 := congrArg Prod.snd h
    simp only at h1 h2
    omega

/-- The spans of one word. -/
def wordSpans (size : Nat) : List Span :=
  (List.range size).map fun i => (i, i + 1)

theorem mem_wordSpans_iff {size : Nat} {span : Span} :
    span ∈ wordSpans size ↔ span.2 = span.1 + 1 ∧ span.2 ≤ size := by
  obtain ⟨i, j⟩ := span
  simp only [wordSpans, List.mem_map, List.mem_range, Prod.mk.injEq]
  constructor
  · rintro ⟨i', hi', rfl, rfl⟩
    omega
  · rintro ⟨hij, hj⟩
    exact ⟨i, by omega, rfl, hij.symm⟩

/-- When a span is to be filled, all shorter spans of the sentence are. -/
theorem mem_before_of_lt {size : Nat} {pre post : List Span} {span part : Span}
    (hspans : spans size = pre ++ span :: post) (hpart : part.1 < part.2) (hsize : part.2 ≤ size)
    (hlt : breadth part < breadth span) : part ∈ wordSpans size ++ pre := by
  by_cases hone : part.2 = part.1 + 1
  · exact List.mem_append_left _ (mem_wordSpans_iff.mpr ⟨hone, hsize⟩)
  · have hmem : part ∈ pre ++ span :: post := hspans ▸ mem_spans_iff.mpr ⟨by omega, hsize⟩
    refine List.mem_append_right _ ((List.mem_append.mp hmem).resolve_right fun hrest => ?_)
    have horder := hspans ▸ pairwise_spans size
    have hbehind := (List.pairwise_cons.mp (List.pairwise_append.mp horder).2.1).1
    rcases List.mem_cons.mp hrest with rfl | hrest
    · omega
    · have := (hbehind part hrest).1
      omega

theorem notMem_before {size : Nat} {pre post : List Span} {span : Span}
    (hspans : spans size = pre ++ span :: post) : span ∉ wordSpans size ++ pre := by
  intro hmem
  have hbreadth := (mem_spans_iff.mp (hspans ▸ List.mem_append_right pre List.mem_cons_self)).1
  rcases List.mem_append.mp hmem with hword | hpre
  · have := (mem_wordSpans_iff.mp hword).1
    omega
  · have horder := hspans ▸ pairwise_spans size
    exact ((List.pairwise_append.mp horder).2.2 span hpre span List.mem_cons_self).2 rfl

/-! ## The cells -/

/-- The words of a span. -/
def slice (words : List String) (span : Span) : List String :=
  (words.drop span.1).take (span.2 - span.1)

/-- The cells of the given spans hold the derivations of their words, the others are empty. -/
def Filled (lexicon : LexicalEntries) (words : List String) (done : List Span) (c : Chart) :
    Prop :=
  ∀ span, c.cell span = if span ∈ done then cutDerivations lexicon (slice words span) else []

variable {lexicon : LexicalEntries} {words : List String}

theorem cell_empty (size : Int) (span : Span) : (empty size).cell span = [] := by
  simp [cell, cellSet, empty]

theorem cell_insertAll_of_nil {c : Chart} {span : Span} (hcell : c.cell span = [])
    (ds : List Derivation) (other : Span) :
    (c.insertAll span ds).cell other = if span = other then ds.eraseDups else c.cell other := by
  rw [cell_insertAll, OrderedSet.toList_insertAll_eq_append, ← cell, hcell, List.nil_append,
    List.removeAll_nil]

theorem eraseDups_leavesOf (lexicon : LexicalEntries) (w : String) :
    (leavesOf lexicon w).eraseDups = cutDerivations lexicon [w] := by
  rw [leavesOf, cutDerivations, Distinct.eraseDups_map]
  intro c c' h
  cases h
  rfl

/-- What the cells of single words hold when the words from place `start` on are entered. -/
theorem cell_fillWords (lexicon : LexicalEntries) (words : List String) (start : Nat) (c : Chart)
    (hempty : ∀ k, start ≤ k → c.cell (k, k + 1) = []) (span : Span) :
    (fillWords lexicon start words c).cell span =
      if start ≤ span.1 ∧ span.2 = span.1 + 1 ∧ span.2 ≤ start + words.length then
        cutDerivations lexicon ((words.drop (span.1 - start)).take 1)
      else c.cell span := by
  induction words generalizing start c with
  | nil =>
    rw [fillWords, if_neg]
    simp only [List.length_nil]
    omega
  | cons w words ih =>
    have hcell := cell_insertAll_of_nil (hempty start (Nat.le_refl _)) (leavesOf lexicon w)
    rw [fillWords, ih]
    · rw [hcell, eraseDups_leavesOf, List.length_cons]
      obtain ⟨i, j⟩ := span
      simp only [Prod.mk.injEq]
      by_cases hi : start = i
      · subst hi
        by_cases hj : j = start + 1
        · subst hj
          rw [if_neg (by omega), if_pos (by omega), if_pos (by omega), Nat.sub_self]
          rfl
        · rw [if_neg (by omega), if_neg (by omega), if_neg (by omega)]
      · have hdrop : start + 1 ≤ i →
            (w :: words).drop (i - start) = words.drop (i - (start + 1)) := by
          intro hle
          rw [show i - start = (i - (start + 1)) + 1 by omega, List.drop_succ_cons]
        by_cases hle : start + 1 ≤ i ∧ j = i + 1 ∧ j ≤ start + 1 + words.length
        · rw [if_pos hle, if_pos (by omega), hdrop hle.1]
        · rw [if_neg hle, if_neg (by omega), if_neg (by omega)]
    · intro k hk
      rw [hcell, if_neg (by simp only [Prod.mk.injEq]; omega), hempty k (by omega)]

theorem filled_ofWords (lexicon : LexicalEntries) (words : List String) :
    Filled lexicon words (wordSpans words.length) (ofWords lexicon words) := by
  intro span
  rw [ofWords, cell_fillWords lexicon words 0 _ (fun k _ => cell_empty _ _), cell_empty]
  by_cases hspan : span ∈ wordSpans words.length
  · have h := mem_wordSpans_iff.mp hspan
    rw [if_pos hspan, if_pos (by omega), slice, h.1, Nat.add_sub_cancel_left, Nat.sub_zero]
  · have h := mt mem_wordSpans_iff.mpr hspan
    rw [if_neg hspan, if_neg (by omega)]

theorem slice_splits (words : List String) {span : Span} {k : Nat} (hk : k ∈ splits span) :
    slice words (span.1, k) = (slice words span).take (k - span.1) ∧
      slice words (k, span.2) = (slice words span).drop (k - span.1) := by
  have := mem_splits_iff.mp hk
  constructor
  · rw [slice, slice, List.take_take, Nat.min_eq_left (by omega)]
  · rw [slice, slice, List.drop_take, List.drop_drop]
    congr 1
    · omega
    · congr 1
      omega

theorem length_slice {span : Span} (hsize : span.2 ≤ words.length) :
    (slice words span).length = breadth span := by
  rw [slice, List.length_take, List.length_drop, breadth]
  omega

/-- The derivations of a sentence of several words by its cuts. -/
theorem cutDerivations_eq_flatMap (lexicon : LexicalEntries) {words : List String}
    (h : 2 ≤ words.length) :
    cutDerivations lexicon words = (List.range (words.length - 1)).flatMap fun k =>
      joinAll (cutDerivations lexicon (words.take (k + 1)))
        (cutDerivations lexicon (words.drop (k + 1))) := by
  match words, h with
  | w :: v :: rest, _ =>
    rw [cutDerivations, ← List.map_coe_finRange_eq_range, List.flatMap_map]
    rfl

/-- What is found for a span when all parts of it have been filled. -/
theorem joinedSpan_eq {pre post : List Span} {span : Span} {c : Chart}
    (hspans : spans words.length = pre ++ span :: post)
    (hc : Filled lexicon words (wordSpans words.length ++ pre) c) :
    joinedSpan c span = cutDerivations lexicon (slice words span) := by
  have hmem : span ∈ spans words.length := hspans ▸ List.mem_append_right pre List.mem_cons_self
  obtain ⟨hbreadth, hsize⟩ := mem_spans_iff.mp hmem
  have hlen : (slice words span).length = span.2 - span.1 := length_slice hsize
  have hparts : ∀ k ∈ splits span, (span.1, k) ∈ wordSpans words.length ++ pre ∧
      (k, span.2) ∈ wordSpans words.length ++ pre := by
    intro k hk
    have hk := mem_splits_iff.mp hk
    constructor <;> apply mem_before_of_lt hspans <;> simp only [breadth] <;> omega
  rw [cutDerivations_eq_flatMap lexicon (by omega), joinedSpan, hlen]
  have hcut : ∀ k ∈ splits span, joinAll (c.cell (span.1, k)) (c.cell (k, span.2)) =
      joinAll (cutDerivations lexicon ((slice words span).take (k - span.1)))
        (cutDerivations lexicon ((slice words span).drop (k - span.1))) := by
    intro k hk
    obtain ⟨hleft, hright⟩ := hparts k hk
    obtain ⟨htake, hdrop⟩ := slice_splits words hk
    rw [hc, hc, if_pos hleft, if_pos hright, htake, hdrop]
  rw [List.flatMap_congr hcut, splits, List.flatMap_map]
  refine List.flatMap_congr fun k _ => ?_
  rw [show span.1 + 1 + k - span.1 = k + 1 by omega]

/-- All that is found for a span enters its cell, since there is no repetition. -/
theorem cell_joinSpan {pre post : List Span} {span : Span} {c : Chart}
    (hspans : spans words.length = pre ++ span :: post)
    (hc : Filled lexicon words (wordSpans words.length ++ pre) c) (other : Span) :
    (joinSpan c span).cell other = if span = other then joinedSpan c span else c.cell other := by
  have hcell : c.cell span = [] := by rw [hc, if_neg (notMem_before hspans)]
  have hnodup : (joinedSpan c span).Nodup := by
    rw [joinedSpan_eq hspans hc]
    exact nodup_cutDerivations _ _
  rw [joinSpan, cell_insertAll_of_nil hcell, Distinct.eraseDups_of_nodup hnodup]

theorem filled_joinSpan {pre post : List Span} {span : Span} {c : Chart}
    (hspans : spans words.length = pre ++ span :: post)
    (hc : Filled lexicon words (wordSpans words.length ++ pre) c) :
    Filled lexicon words (wordSpans words.length ++ (pre ++ [span])) (joinSpan c span) := by
  intro other
  rw [cell_joinSpan hspans hc, joinedSpan_eq hspans hc, hc, ← List.append_assoc]
  by_cases hother : span = other
  · subst hother
    simp
  · rw [if_neg hother]
    simp only [List.mem_append, List.mem_singleton, Ne.symm hother, or_false]

theorem filled_foldl (pre : List Span) {mid post : List Span} {c : Chart}
    (hspans : spans words.length = pre ++ (mid ++ post))
    (hc : Filled lexicon words (wordSpans words.length ++ pre) c) :
    Filled lexicon words (wordSpans words.length ++ (pre ++ mid)) (mid.foldl joinSpan c) := by
  induction mid generalizing pre c with
  | nil => rwa [List.append_nil, List.foldl_nil]
  | cons span mid ih =>
    have hnext := ih (pre ++ [span]) (by rw [hspans, List.append_assoc]; rfl)
      (filled_joinSpan hspans hc)
    rw [List.append_assoc] at hnext
    exact hnext

/-- The cells of the first spans, when the chart has been filled up to them. -/
theorem filled_before (lexicon : LexicalEntries) {pre post : List Span}
    (hspans : spans words.length = pre ++ post) :
    Filled lexicon words (wordSpans words.length ++ pre)
      (pre.foldl joinSpan (ofWords lexicon words)) :=
  filled_foldl [] hspans (by rw [List.append_nil]; exact filled_ofWords lexicon words)

theorem filled_ofSentence (lexicon : LexicalEntries) (words : List String) :
    Filled lexicon words (wordSpans words.length ++ spans words.length)
      (ofSentence lexicon words) := by
  rw [ofSentence_eq_foldl]
  exact filled_before lexicon (List.append_nil _).symm

/-- The cell of a span of the sentence holds the derivations of the words of the span. -/
theorem cell_ofSentence (lexicon : LexicalEntries) {words : List String} {span : Span}
    (hspan : span.1 < span.2) (hsize : span.2 ≤ words.length) :
    (ofSentence lexicon words).cell span = cutDerivations lexicon (slice words span) := by
  rw [filled_ofSentence, if_pos]
  by_cases hone : span.2 = span.1 + 1
  · exact List.mem_append_left _ (mem_wordSpans_iff.mpr ⟨hone, hsize⟩)
  · exact List.mem_append_right _ (mem_spans_iff.mpr ⟨by omega, hsize⟩)

theorem mem_cell_iff {span : Span} (hspan : span.1 < span.2) (hsize : span.2 ≤ words.length)
    {d : Derivation} :
    d ∈ (ofSentence lexicon words).cell span ↔ Licensed lexicon (slice words span) d := by
  rw [cell_ofSentence lexicon hspan hsize, mem_cutDerivations_iff]

/-- Nothing but licensed derivations gets into any cell, also where the sentence has no span. -/
theorem licensed_of_mem_cell {span : Span} {d : Derivation}
    (hd : d ∈ (ofSentence lexicon words).cell span) : Licensed lexicon (slice words span) d := by
  rw [filled_ofSentence] at hd
  split at hd
  · exact mem_cutDerivations_iff.mp hd
  · cases hd

end Chart

open Chart in
/-- The derivations of a sentence are those found by cutting it, in the same order. -/
theorem parse_eq_cutDerivations (lexicon : LexicalEntries) (words : List String) :
    parse lexicon words = cutDerivations lexicon words := by
  rw [parse]
  cases words with
  | nil =>
    rw [filled_ofSentence, if_neg (by simp [wordSpans, spans]), cutDerivations]
  | cons w words =>
    rw [cell_ofSentence lexicon (by simp) (Nat.le_refl _), slice, Nat.sub_zero, List.drop_zero,
      List.take_length]

theorem mem_parse_iff {lexicon : LexicalEntries} {words : List String} {d : Derivation} :
    d ∈ parse lexicon words ↔ Licensed lexicon words d := by
  rw [parse_eq_cutDerivations, mem_cutDerivations_iff]

theorem nodup_parse (lexicon : LexicalEntries) (words : List String) :
    (parse lexicon words).Nodup := by
  rw [parse_eq_cutDerivations]
  exact nodup_cutDerivations lexicon words

end Categorial

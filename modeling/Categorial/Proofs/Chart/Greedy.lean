import Categorial.Chart.Greedy
import Categorial.Proofs.Chart.Filling
import Mathlib.Data.List.Induction

/-!
# What deterministic parsing finds

The deterministic parser fills its chart in the order of the exhaustive one, and what it keeps of a
span is the head of the list of derivations that the exhaustive parser would find in the same chart
(`Chart.greedy_eq_foldl`). So everything it keeps is licensed. As long as no span of several words
has more than one derivation, nothing is lost by keeping the head, and the two charts are the same;
for the whole sentence the head is what is asked for.

* `Chart.gives_firstJoin`, `Chart.gives_firstSplit`: the first derivation heads the list of all.
* `Chart.licensed_of_mem_greedy`: the cells of the chart hold licensed derivations.
* `Chart.foldl_pickSpan_eq`: up to an ambiguous span both charts are the same.
* `parseGreedy_sound_and_complete`: what is found, and when it is the head of the parse.
-/

namespace Categorial

open Categorial.Derivation

namespace Chart

/-! ## The chart without a cache -/

/-- The chart with the first derivation of one more span. -/
def pickSpan (c : Chart) (span : Span) : Chart :=
  c.insertAll span (joinedSpan c span).head?.toList

theorem gives_firstAbove (left : Derivation) (rights : List Derivation) :
    Cache.Gives (firstJoin.firstAbove left rights)
      (rights.flatMap fun right => parents left right).head? := by
  induction rights with
  | nil => exact Cache.gives_pure none
  | cons right rights ih =>
    have hfirst := gives_cachedFirstParent left right
    rw [firstParent_eq_head?] at hfirst
    rw [List.flatMap_cons, List.head?_append, firstJoin.firstAbove]
    exact Cache.gives_or hfirst (fun _ => rfl) ih

theorem gives_firstJoin (lefts rights : List Derivation) :
    Cache.Gives (firstJoin lefts rights) (joinAll lefts rights).head? := by
  induction lefts with
  | nil => exact Cache.gives_pure none
  | cons left lefts ih =>
    rw [joinAll, List.flatMap_cons, List.head?_append, firstJoin]
    exact Cache.gives_or (gives_firstAbove left rights) (fun _ => rfl) ih

theorem gives_firstSplit (c : Chart) (span : Span) (ks : List Nat) :
    Cache.Gives (firstSplit c span ks)
      (ks.flatMap fun k => joinAll (c.cell (span.1, k)) (c.cell (k, span.2))).head? := by
  induction ks with
  | nil => exact Cache.gives_pure none
  | cons k ks ih =>
    rw [List.flatMap_cons, List.head?_append, firstSplit]
    exact Cache.gives_or (gives_firstJoin _ _) (fun _ => rfl) ih

theorem gives_fillFirst (c : Chart) (span : Span) :
    Cache.Gives (fillFirst c span) (pickSpan c span) :=
  Cache.gives_bind (gives_firstSplit c span (splits span)) (Cache.gives_pure _)

theorem greedy_eq_foldl (lexicon : LexicalEntries) (words : List String) :
    greedy lexicon words = (spans words.length).foldl pickSpan (ofWords lexicon words) :=
  (Cache.gives_foldlM gives_fillFirst _ _ _ Cache.valid_empty).1

/-! ## Licensed cells -/

variable {lexicon : LexicalEntries} {words : List String}

theorem mem_cell_insertAll_iff {c : Chart} {span other : Span} {ds : List Derivation}
    {d : Derivation} :
    d ∈ (c.insertAll span ds).cell other ↔ d ∈ c.cell other ∨ span = other ∧ d ∈ ds := by
  rw [cell_insertAll]
  split
  · next h =>
    subst h
    rw [OrderedSet.toList_insertAll_eq_append, List.mem_append, List.mem_eraseDups, ← cell,
      List.removeAll, List.mem_filter]
    by_cases hd : d ∈ c.cell span <;> simp [hd]
  · next h => simp [h]

/-- Every cell holds derivations that are licensed for its words. -/
def IsLicensed (lexicon : LexicalEntries) (words : List String) (c : Chart) : Prop :=
  ∀ span, ∀ d ∈ c.cell span, Licensed lexicon (slice words span) d

theorem IsLicensed.of_mem_joinedSpan {c : Chart} (hc : IsLicensed lexicon words c) {span : Span}
    {d : Derivation} (hd : d ∈ joinedSpan c span) : Licensed lexicon (slice words span) d := by
  obtain ⟨k, hk, hd⟩ := List.mem_flatMap.mp hd
  obtain ⟨left, hleft, right, hright, hp⟩ := mem_joinAll_iff.mp hd
  obtain ⟨htake, hdrop⟩ := slice_splits words hk
  have hl := hc _ left hleft
  have hr := hc _ right hright
  rw [htake] at hl
  rw [hdrop] at hr
  rw [← List.take_append_drop (k - span.1) (slice words span)]
  exact hl.of_mem_parents hr hp

theorem isLicensed_pickSpan {c : Chart} (hc : IsLicensed lexicon words c) (span : Span) :
    IsLicensed lexicon words (pickSpan c span) := by
  intro other d hd
  rcases mem_cell_insertAll_iff.mp hd with hold | ⟨rfl, hnew⟩
  · exact hc other d hold
  · exact hc.of_mem_joinedSpan (List.mem_of_head? (Option.mem_toList.mp hnew))

theorem isLicensed_ofWords (lexicon : LexicalEntries) (words : List String) :
    IsLicensed lexicon words (ofWords lexicon words) := by
  intro span d hd
  rw [filled_ofWords] at hd
  split at hd
  · exact mem_cutDerivations_iff.mp hd
  · cases hd

theorem licensed_of_mem_greedy {span : Span} {d : Derivation}
    (hd : d ∈ (greedy lexicon words).cell span) : Licensed lexicon (slice words span) d := by
  have hfold : ∀ (done : List Span) (c : Chart), IsLicensed lexicon words c →
      IsLicensed lexicon words (done.foldl pickSpan c) := by
    intro done
    induction done with
    | nil => exact fun c hc => hc
    | cons span done ih => exact fun c hc => ih _ (isLicensed_pickSpan hc span)
  rw [greedy_eq_foldl] at hd
  exact hfold _ _ (isLicensed_ofWords lexicon words) span d hd

/-! ## Agreement of the two charts -/

theorem toList_head?_of_length_le_one {as : List Derivation} (h : as.length ≤ 1) :
    as.head?.toList = as := by
  match as, h with
  | [], _ => rfl
  | [a], _ => rfl

/-- While no span has more than one derivation, both parsers fill the chart alike. -/
theorem foldl_pickSpan_eq {pre post : List Span} (hspans : spans words.length = pre ++ post)
    (hone : ∀ span ∈ pre, (parse lexicon (slice words span)).length ≤ 1) :
    pre.foldl pickSpan (ofWords lexicon words) = pre.foldl joinSpan (ofWords lexicon words) := by
  induction pre using List.reverseRecOn generalizing post with
  | nil => rfl
  | append_singleton pre span ih =>
    rw [List.append_assoc, List.singleton_append] at hspans
    have hbefore := ih hspans fun span hspan => hone span (List.mem_append_left _ hspan)
    have hlast := hone span (List.mem_append_right _ List.mem_cons_self)
    rw [parse_eq_cutDerivations, ← joinedSpan_eq hspans (filled_before lexicon hspans)] at hlast
    rw [List.foldl_concat, List.foldl_concat, hbefore, pickSpan,
      toList_head?_of_length_le_one hlast, joinSpan]

/-- The whole sentence comes last, behind all its parts. -/
theorem spans_eq_concat {size : Nat} (h : 2 ≤ size) :
    ∃ pre, spans size = pre ++ [(0, size)] ∧ ∀ span ∈ pre, span ≠ (0, size) := by
  have hlast : (0, size) ∈ spans size := mem_spans_iff.mpr ⟨by omega, Nat.le_refl _⟩
  obtain ⟨pre, post, hspans⟩ := List.append_of_mem hlast
  have horder := hspans ▸ pairwise_spans size
  obtain ⟨-, hbehind, hfront⟩ := List.pairwise_append.mp horder
  have hnone : post = [] := by
    refine List.eq_nil_iff_forall_not_mem.mpr fun span hspan => ?_
    obtain ⟨hbreadth, hne⟩ := (List.pairwise_cons.mp hbehind).1 span hspan
    have hmem : span ∈ spans size :=
      hspans ▸ List.mem_append_right pre (List.mem_cons_of_mem _ hspan)
    have hstop := (mem_spans_iff.mp hmem).2
    simp only [breadth] at hbreadth
    exact hne (Prod.ext (by simp only; omega) (by simp only; omega))
  subst hnone
  exact ⟨pre, hspans, fun span hspan => (hfront span hspan _ List.mem_cons_self).2⟩

end Chart

open Chart

/-- If no proper part of several words is ambiguous, the first derivation of the parse is found. -/
theorem parseGreedy_eq_head? {lexicon : LexicalEntries} {words : List String}
    (hone : ∀ span ∈ spans words.length, span ≠ (0, words.length) →
      (parse lexicon (slice words span)).length ≤ 1) :
    parseGreedy lexicon words = (parse lexicon words).head? := by
  by_cases hlen : 2 ≤ words.length
  · obtain ⟨pre, hspans, hproper⟩ := spans_eq_concat hlen
    have hparts : ∀ span ∈ pre, (parse lexicon (slice words span)).length ≤ 1 :=
      fun span hspan => hone span (hspans ▸ List.mem_append_left _ hspan) (hproper span hspan)
    have hfilled := filled_before lexicon hspans
    have hcell := hfilled (0, words.length)
    rw [if_neg (notMem_before hspans)] at hcell
    have hwhole := joinedSpan_eq hspans hfilled
    rw [slice, Nat.sub_zero, List.drop_zero, List.take_length, ← parse_eq_cutDerivations] at hwhole
    rw [parseGreedy, greedy_eq_foldl, hspans, List.foldl_concat, foldl_pickSpan_eq hspans hparts,
      pickSpan, cell_insertAll_of_nil hcell, if_pos rfl, hwhole]
    cases parse lexicon words <;> rfl
  · -- there is no span of several words to be filled
    have hspans : spans words.length = [] := by
      refine List.eq_nil_iff_forall_not_mem.mpr fun span hspan => ?_
      have := mem_spans_iff.mp hspan
      omega
    rw [parseGreedy, parse, greedy_eq_foldl, ofSentence_eq_foldl, hspans]
    rfl

/-- **Deterministic parsing is sound, and complete without ambiguity.** What the deterministic
parser finds is a derivation of the sentence. If no proper part of several words has two
derivations, however many categories the words have, it is the first derivation of the sentence, and
nothing is found only where there is none. A sentence of at most two words has no such part. -/
theorem parseGreedy_sound_and_complete (lexicon : LexicalEntries) (words : List String) :
    (∀ d, parseGreedy lexicon words = some d → d ∈ parse lexicon words) ∧
      ((∀ i j, i + 2 ≤ j → j ≤ words.length → j - i < words.length →
          (parse lexicon ((words.drop i).take (j - i))).length ≤ 1) →
        parseGreedy lexicon words = (parse lexicon words).head? ∧
          (parseGreedy lexicon words = none ↔ parse lexicon words = [])) ∧
      (words.length ≤ 2 →
        parseGreedy lexicon words = (parse lexicon words).head? ∧
          (parseGreedy lexicon words = none ↔ parse lexicon words = [])) := by
  have hcomplete : (∀ i j, i + 2 ≤ j → j ≤ words.length → j - i < words.length →
      (parse lexicon ((words.drop i).take (j - i))).length ≤ 1) →
      parseGreedy lexicon words = (parse lexicon words).head? ∧
        (parseGreedy lexicon words = none ↔ parse lexicon words = []) := by
    intro hone
    have heq : parseGreedy lexicon words = (parse lexicon words).head? := by
      refine parseGreedy_eq_head? fun span hspan hproper => ?_
      obtain ⟨hbreadth, hstop⟩ := mem_spans_iff.mp hspan
      refine hone span.1 span.2 hbreadth hstop (Nat.lt_of_not_le fun hle => hproper ?_)
      exact Prod.ext (by simp only; omega) (by simp only; omega)
    exact ⟨heq, by rw [heq, List.head?_eq_none_iff]⟩
  refine ⟨fun d hd => ?_, hcomplete, fun hshort => hcomplete fun i j hij hj hlt => ?_⟩
  · have hlicensed := licensed_of_mem_greedy (List.mem_of_head? hd)
    rw [slice, Nat.sub_zero, List.drop_zero, List.take_length] at hlicensed
    exact mem_parse_iff.mpr hlicensed
  · omega

end Categorial

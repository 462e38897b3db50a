import Categorial.Proofs.Chart.Filling

/-!
# Exhaustive parsing is exact

The chart parser finds the licensed derivations of a sentence, all of them and no other ones, each
once. The licence is `Derivation.Licensed`, which knows neither charts nor caches; the way from the
chart to it leads over the recursion of `cutDerivations`.

* `mem_parse_iff_licensed`: the derivations of a sentence.
-/

namespace Categorial

open Categorial.Derivation

/-- **Exactness of the exhaustive parser.** A derivation is found if and only if it is licensed for
the words of the sentence, and none is found twice. All derivations that are found have the words
of the sentence at their leaves and a category at each of their parts, and a sentence without words
has none. -/
theorem mem_parse_iff_licensed (lexicon : LexicalEntries) (words : List String) :
    (∀ d, d ∈ parse lexicon words ↔ Licensed lexicon words d) ∧ (parse lexicon words).Nodup ∧
      (∀ d ∈ parse lexicon words,
        d.words = words.map some ∧ ∀ e ∈ d.subtrees, e.category.isSome) ∧
      parse lexicon [] = [] := by
  refine ⟨fun d => mem_parse_iff, nodup_parse lexicon words, ?_, ?_⟩
  · intro d hd
    have hlicensed := mem_parse_iff.mp hd
    exact ⟨hlicensed.words_eq, hlicensed.category_of_mem_subtrees⟩
  · rw [parse_eq_cutDerivations, cutDerivations]

end Categorial

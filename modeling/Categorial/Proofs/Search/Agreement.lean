import Categorial.Proofs.Chart.Recursion
import Categorial.Proofs.Derivation.Conservation
import Categorial.Proofs.Search.Steps

/-!
# Best-first search and exhaustive parsing agree

Unless its limit on the steps cuts it off, a search returns as many of the derivations that are
eligible as are asked for, or all of them. The limit is all that can cut it off: it does so exactly
if the search takes more steps to its end, and it takes no more than there are leaves and
derivations of parts.

* `Search.CutOnlyByLimit`: what it means for a search that it gives up.
* `Search.exists_cutOnlyByLimit`: no search gives up in another way.
* `search_agrees`: the agreement of the two parsers.
* `parse_clause`: a sentence with two derivations, in one of which the subject is raised.
-/

namespace Categorial

namespace Search

variable {ε α : Type} [Add α] [Sub α] [Neg α] [Mul α] [OfNat α 0] [OfNat α 1] [LT α]
  [DecidableLT α]

/-- A search with this outcome gives up where it would make more steps than its limit if it were
allowed as many as there can be, and nowhere else; and then it has made as many as the limit
says. -/
def CutOnlyByLimit (scorer : Scorer ε α) (lexicon : LexicalEntries) (request : Request α)
    (words : List String) (o : Outcome α) : Prop :=
  let bound := leafCount scorer lexicon words + partCount lexicon words
  ∃ whole, search scorer lexicon { request with maxSteps := bound } words = .ok whole ∧
    whole.ending ≠ .gaveUp ∧ whole.steps ≤ bound ∧
    (o.ending = .gaveUp ↔ request.maxSteps.toNat < whole.steps) ∧
    (o.ending = .gaveUp → o.steps = request.maxSteps.toNat)

variable {scorer : Scorer ε α} {lexicon : LexicalEntries} {request : Request α}
  {words : List String} {o : Outcome α}

theorem CutOnlyByLimit.ending_ne (h : CutOnlyByLimit scorer lexicon request words o)
    (hlimit : (leafCount scorer lexicon words + partCount lexicon words : Nat) ≤
      request.maxSteps) : o.ending ≠ .gaveUp := by
  obtain ⟨whole, -, -, hsteps, hiff, -⟩ := h
  rw [Ne, hiff]
  omega

/-- A search has an outcome, and gives up because of its limit or not at all. -/
theorem exists_cutOnlyByLimit (hpenalty : ¬ request.penalty < 0)
    (hanswers : Answers scorer lexicon 0 words) :
    ∃ o, search scorer lexicon request words = .ok o ∧
      CutOnlyByLimit scorer lexicon request words o := by
  rcases search_starts hanswers with ⟨ending, hending, hnone⟩ | hstart
  · have hsearch := fun limit : Int => (hnone { request with maxSteps := limit } hpenalty).1
    refine ⟨_, hsearch request.maxSteps, _, hsearch _, hending, Nat.zero_le _, ?_,
      fun hcut => absurd hcut hending⟩
    simp [hending]
  · let bound := leafCount scorer lexicon words + partCount lexicon words
    let f := frame request (sentenceLeaves scorer.leafScore lexicon 0 words)
    let s := start f (sentenceLeaves scorer.leafScore lexicon 0 words)
    have hsearch : ∀ limit : Int, search scorer lexicon { request with maxSteps := limit } words =
        .ok (outcomeOf (run f limit.toNat s)) := by
      intro limit
      rw [hstart { request with maxSteps := limit } hpenalty, ofLeaves_maxSteps]
    have hsize : f.size = words.length := size_sentenceFrame request
    have hdone : (run f bound s).2 = false := run_snd_of_le hsize (Nat.le_refl bound)
    refine ⟨_, hsearch request.maxSteps, _, hsearch bound, ?_, ?_, ?_, fun hcut => ?_⟩
    · rw [Int.toNat_natCast, Ne, ending_outcomeOf_iff, hdone]
      exact Bool.false_ne_true
    · exact Nat.le_of_add_right_le (steps_add_size_le scorer lexicon words hsize _)
    · rw [ending_outcomeOf_iff, Int.toNat_natCast]
      exact run_snd_iff rfl hdone
    · have hsteps := (run_of_cut ((ending_outcomeOf_iff _).mp hcut)).2
      exact hsteps.trans (Nat.zero_add _)

/-- What a search returns of the eligible derivations if it does not give up. -/
theorem exists_results_eligible (hpenalty : ¬ request.penalty < 0)
    (hanswers : Answers scorer lexicon 0 words) :
    ∃ o, search scorer lexicon request words = .ok o ∧
      CutOnlyByLimit scorer lexicon request words o ∧ (o.ending ≠ .gaveUp →
      (o.results.map (·.derivation)).Nodup ∧
      (∀ d ∈ o.results.map (·.derivation), d ∈ eligible scorer lexicon request words) ∧
      o.results.length =
        min request.count.toNat (eligible scorer lexicon request words).length) := by
  obtain ⟨o, hsearch, hcut⟩ := exists_cutOnlyByLimit hpenalty hanswers
  refine ⟨o, hsearch, hcut, fun hending => ?_⟩
  rcases search_cases hpenalty hanswers with ⟨ending, hnothing, hnone⟩ | hleaves
  · cases hsearch.symm.trans hnothing
    simp [hnone]
  · cases hsearch.symm.trans hleaves
    have hsize : (sentenceFrame scorer.leafScore lexicon request words).size = words.length :=
      size_sentenceFrame request
    obtain ⟨taken, q, hsaturated, hconcludes⟩ := exists_concludes request
      (sentenceLeaves scorer.leafScore lexicon 0 words)
      (Saturated scorer.leafScore lexicon words _ fun _ _ => Alike.one) (saturated_start _ _ _ _ _)
      (fun _ _ _ _ h hout hpass => h.pass hout hpass fun _ _ _ => le_refl _)
      (fun _ _ _ _ h hout hpass hopen => h.take hsize hout hpass hopen)
    exact hconcludes.results_spec hsaturated hsize hending

end Search

open Search

/-- **Agreement of the two parsers.** Whatever the numbers and their order are, a search that its
limit on the steps does not cut off returns derivations that exhaustive parsing finds, with
available leaves and a category that is asked for, each once and as many as asked for, or all there
are. -/
theorem search_agrees {ε α : Type} [Add α] [Sub α] [Neg α] [Mul α] [OfNat α 0] [OfNat α 1] [LT α]
    [DecidableLT α] (scorer : Scorer ε α) (lexicon : LexicalEntries) (request : Request α)
    (words : List String) (hpenalty : ¬ request.penalty < 0)
    (hanswers : Answers scorer lexicon 0 words) :
    ∃ o, search scorer lexicon request words = .ok o ∧
      CutOnlyByLimit scorer lexicon request words o ∧ (o.ending ≠ .gaveUp →
      (o.results.map (·.derivation)).Nodup ∧
      (∀ d ∈ o.results.map (·.derivation), d ∈ eligible scorer lexicon request words) ∧
      o.results.length =
        min request.count.toNat (eligible scorer lexicon request words).length ∧
      (1 ≤ request.count →
        (o.results = [] ↔ eligible scorer lexicon request words = [])) ∧
      ((eligible scorer lexicon request words).length ≤ request.count.toNat →
        (o.results.map (·.derivation)).Perm (eligible scorer lexicon request words))) := by
  obtain ⟨o, hsearch, hcut, hresults⟩ := exists_results_eligible hpenalty hanswers
  refine ⟨o, hsearch, hcut, fun hending => ?_⟩
  obtain ⟨hnodup, hmem, hlength⟩ := hresults hending
  refine ⟨hnodup, hmem, hlength, fun hcount => ?_, fun hall => ?_⟩
  · have hlimit : 1 ≤ request.count.toNat := by omega
    rw [← List.length_eq_zero_iff, ← List.length_eq_zero_iff, hlength]
    omega
  · apply (List.subperm_of_subset hnodup hmem).perm_of_length_le
    rw [List.length_map, hlength]
    exact Nat.le_min.mpr ⟨hall, Nat.le_refl _⟩

/-! ## A clause with two derivations -/

theorem parse_pair (lexicon : LexicalEntries) (u v : String) :
    parse lexicon [u, v] = joinAll (parse lexicon [u]) (parse lexicon [v]) := by
  rw [parse_eq_flatMap lexicon (by simp)]
  exact List.append_nil _

theorem parse_triple (lexicon : LexicalEntries) (u v w : String) :
    parse lexicon [u, v, w] =
      joinAll (parse lexicon [u]) (parse lexicon [v, w]) ++
        joinAll (parse lexicon [u, v]) (parse lexicon [w]) := by
  rw [parse_eq_flatMap lexicon (by simp)]
  exact congrArg _ (List.append_nil _)

/-- The verb with its object. -/
def verbPhrase (verb object : String) : Derivation :=
  .node .forwardApply (.leaf (.forward (.backward .s .np) .np) (some verb))
    (.leaf .np (some object))

/-- A clause in which the verb is joined to its object first. -/
def plainClause (subject verb object : String) : Derivation :=
  .node .backwardApply (.leaf .np (some subject)) (verbPhrase verb object)

/-- A clause in which the raised subject is composed with the verb first. -/
def raisedClause (subject verb object : String) : Derivation :=
  .node .forwardApply (raisedSubject subject verb) (.leaf .np (some object))

section

variable {subject verb object : String}

theorem parse_noun (h : subject ≠ verb) :
    parse (verbAndNounPhrases verb) [subject] = [.leaf .np (some subject)] := by
  rw [parse_singleton, verbAndNounPhrases, if_neg h]
  rfl

theorem parse_verb (verb : String) : parse (verbAndNounPhrases verb) [verb] =
    [.leaf (.forward (.backward .s .np) .np) (some verb)] := by
  rw [parse_singleton, verbAndNounPhrases, if_pos rfl]
  rfl

theorem parse_raisedSubject (h : subject ≠ verb) :
    parse (verbAndNounPhrases verb) [subject, verb] = [raisedSubject subject verb] := by
  rw [parse_pair, parse_noun h, parse_verb]
  rfl

theorem parse_verbPhrase (h : object ≠ verb) :
    parse (verbAndNounPhrases verb) [verb, object] = [verbPhrase verb object] := by
  rw [parse_pair, parse_noun h, parse_verb]
  rfl

theorem parse_clause (hsubject : subject ≠ verb) (hobject : object ≠ verb) :
    parse (verbAndNounPhrases verb) [subject, verb, object] =
      [plainClause subject verb object, raisedClause subject verb object] := by
  rw [parse_triple, parse_raisedSubject hsubject, parse_verbPhrase hobject, parse_noun hsubject,
    parse_noun hobject]
  rfl

theorem partCount_raisedSubject (h : subject ≠ verb) :
    partCount (verbAndNounPhrases verb) [subject, verb] = 1 := by
  have hspans : Chart.spans 2 = [(0, 2)] := by decide
  have hparts : partCount (verbAndNounPhrases verb) [subject, verb] =
      ([[subject, verb]].map fun words => (parse (verbAndNounPhrases verb) words).length).sum := by
    rw [partCount, List.length_cons, List.length_singleton, hspans]
    rfl
  rw [hparts, List.map_singleton, parse_raisedSubject h]
  rfl

theorem partCount_clause (hsubject : subject ≠ verb) (hobject : object ≠ verb) :
    partCount (verbAndNounPhrases verb) [subject, verb, object] = 4 := by
  have hspans : Chart.spans 3 = [(0, 2), (1, 3), (0, 3)] := by decide
  have hparts : partCount (verbAndNounPhrases verb) [subject, verb, object] =
      ([[subject, verb], [verb, object], [subject, verb, object]].map
        fun words => (parse (verbAndNounPhrases verb) words).length).sum := by
    rw [partCount, List.length_cons, List.length_cons, List.length_singleton, hspans]
    rfl
  rw [hparts, List.map_cons, List.map_cons, List.map_singleton, parse_raisedSubject hsubject,
    parse_verbPhrase hobject, parse_clause hsubject hobject]
  rfl

/-- Three leaves and four derivations of parts: a limit of seven steps cuts nothing off. -/
theorem ending_ne_clause {ε α : Type} [Add α] [Sub α] [Neg α] [Mul α] [OfNat α 0] [OfNat α 1] [LT α]
    [DecidableLT α] {scorer : Scorer ε α} {request : Request α} {o : Outcome α}
    (hsubject : subject ≠ verb) (hobject : object ≠ verb)
    (hleaves : leafCount scorer (verbAndNounPhrases verb) [subject, verb, object] = 3)
    (hlimit : 7 ≤ request.maxSteps)
    (hcut : CutOnlyByLimit scorer (verbAndNounPhrases verb) request [subject, verb, object] o) :
    o.ending ≠ .gaveUp := by
  apply hcut.ending_ne
  rw [hleaves, partCount_clause hsubject hobject]
  exact hlimit

end

/-- Both derivations of a clause are returned when more are asked for. -/
theorem search_agrees_clause :
    let scorer : Scorer Unit Int := fun _ _ c => .ok (some (if c = .np then -1 else -2))
    let request : Request Int := ⟨5, 100, 1, some [.s, .n]⟩
    ¬ request.penalty < 0 ∧
      ∃ o, search scorer (verbAndNounPhrases "saw") request ["they", "saw", "them"] = .ok o ∧
        o.ending ≠ .gaveUp ∧ o.results.length = 2 ∧
        (o.results.map (·.derivation)).Perm
          [plainClause "they" "saw" "them", raisedClause "they" "saw" "them"] := by
  intro scorer request
  have hpenalty : ¬ request.penalty < 0 := by decide
  obtain ⟨o, hsearch, hcut, hagrees⟩ := search_agrees scorer (verbAndNounPhrases "saw") request
    ["they", "saw", "them"] hpenalty fun _ _ _ _ => ⟨_, rfl⟩
  have hleaves : leafCount scorer (verbAndNounPhrases "saw") ["they", "saw", "them"] = 3 := by
    decide
  have hending : o.ending ≠ .gaveUp :=
    ending_ne_clause (by decide) (by decide) hleaves (by decide) hcut
  have heligible : eligible scorer (verbAndNounPhrases "saw") request ["they", "saw", "them"] =
      [plainClause "they" "saw" "them", raisedClause "they" "saw" "them"] := by
    rw [eligible, parse_clause (by decide) (by decide)]
    decide
  obtain ⟨-, -, hlength, -, hall⟩ := hagrees hending
  rw [heligible] at hlength hall
  exact ⟨hpenalty, o, hsearch, hending, hlength, hall (by decide)⟩

end Categorial

import Mathlib.Data.List.Forall2
import Categorial.Command.Run
import Categorial.Proofs.Chart.Recursion
import Categorial.Proofs.Export.Report
import Categorial.Proofs.Lexicon.ReadBack
import Categorial.Proofs.Search.Results

/-!
# What a run prints in JSON

What a run prints in JSON has an entry for each line of its input that is not blank, under the
number of the sentence of this line. A run that ends well has found the derivations of every
sentence. Once everything is read, only a best-first search can break it off, for want of a setting
or because of a negative penalty.

No sentence at all is not told apart from one sentence without derivations, so there is an entry for
it as well.

* `sentences?_reported`: the sentences that are found in what is reported.
* `length_sentences`: the number of sentences of a text.
* `exit_runSentences`: a run that ends well.
* `json_entries`: what is read back from a report, and from what a run prints.
-/

namespace Categorial

namespace Export

/-! ## What is reported -/

theorem mapM_scored? (ds : List (Scored Float)) :
    (ds.map Reported.scored).mapM Reported.scored? = some ds := by
  induction ds with
  | nil => rfl
  | cons d ds ih =>
    rw [List.map_cons, List.mapM_cons, ih]
    rfl

theorem mapM_sentence? (results : List (List (Scored Float))) :
    (Command.reported results).mapM Reported.sentence? = some results := by
  induction results with
  | nil => rfl
  | cons ds results ih =>
    have hlist : Reported.sentence? (.list (ds.map .scored)) = some ds := mapM_scored? ds
    rw [Command.reported, List.map_cons, List.mapM_cons, hlist, ← Command.reported, ih]
    rfl

/-- No sentence at all is taken for one sentence without derivations. -/
theorem sentences?_reported (results : List (List (Scored Float))) :
    sentences? (Command.reported results) = some (if results = [] then [[]] else results) := by
  cases results with
  | nil => rfl
  | cons ds results =>
    have hnone : (Command.reported (ds :: results)).mapM Reported.scored? = none := by
      rw [Command.reported, List.map_cons, List.mapM_cons]
      rfl
    rw [sentences?, hnone, mapM_sentence?, if_neg (List.cons_ne_nil ds results)]

theorem report_json (full : Bool) {results : List (List (Scored Float))} (hne : results ≠ []) :
    report "json" full (Command.reported results) = .ok (records full results).render := by
  have hname : Format.ofName? "json" = some .json := by rfl
  rw [report, sentences?_reported, if_neg hne, hname]
  rfl

end Export

namespace Command

open Export (Enumerates entry)

variable {options : ParseOptions} {roots : Option (List Category)} {lexicon : Lexicon}

/-! ## The sentences of a run -/

theorem length_sentences (text : String) :
    (sentences text).length = (Text.lines text).countP (!·.all Text.isBlank) := by
  rw [sentences, ← List.countP_eq_length_filter, List.countP_map]
  apply List.countP_congr
  intro line _
  have hfields : Text.fields line = [] ↔ line.all Text.isBlank = true := by
    rw [Text.fields_eq_nil_iff, List.all_eq_true]
  rw [Bool.not_eq_true', ← Bool.not_eq_true, ← hfields]
  simp

/-- A sentence has the given derivations. -/
def Parses (options : ParseOptions) (roots : Option (List Category)) (lexicon : Lexicon)
    (words : List String) (ds : List (Scored Float)) : Prop :=
  ∃ events, parseSentence options roots lexicon words = .ok (ds, events)

theorem forall₂_parses {ss : List (List String)} {results : List (List (Scored Float))}
    (h : (parseSentences options roots lexicon ss).1 = .ok results) :
    List.Forall₂ (Parses options roots lexicon) ss results := by
  induction ss generalizing results with
  | nil =>
    cases h
    exact .nil
  | cons words ss ih =>
    cases hwords : parseSentence options roots lexicon words with
    | error e =>
      simp only [parseSentences, hwords] at h
      cases h
    | ok p =>
      obtain ⟨ds, events⟩ := p
      simp only [parseSentences, hwords] at h
      cases hrest : (parseSentences options roots lexicon ss).1 with
      | error e =>
        rw [hrest] at h
        cases h
      | ok rest =>
        rw [hrest] at h
        cases h
        exact .cons ⟨events, hwords⟩ (ih hrest)

/-- The settings that a best-first search needs are made, and it does not refuse the penalty. -/
def Searchable (options : ParseOptions) : Prop :=
  options.mode = .best → ∃ penalty count maxSteps, options.penalty = some penalty ∧
    ¬ penalty < 0 ∧ options.count = some count ∧ options.maxSteps = some maxSteps

theorem exists_search {request : Request Float} (hpenalty : ¬ request.penalty < 0)
    (entries : LexicalEntries) (words : List String) :
    ∃ o, search (@uniformScorer Empty Float _) entries request words = .ok o := by
  have hanswers : Search.Answers (@uniformScorer Empty Float _) entries 0 words :=
    fun _ _ _ _ => ⟨_, rfl⟩
  rcases Search.search_cases hpenalty hanswers with ⟨_, hsearch, -⟩ | hsearch
  · exact ⟨_, hsearch⟩
  · exact ⟨_, hsearch⟩

theorem exists_bestOutcome (h : Searchable options) (hmode : options.mode = .best)
    (words : List String) : ∃ o, bestOutcome options roots lexicon words = .ok o := by
  obtain ⟨penalty, count, maxSteps, hpenalty, hnonneg, hcount, hmaxSteps⟩ := h hmode
  obtain ⟨trial, htrial⟩ :=
    @exists_search ⟨0, 0, penalty, roots⟩ hnonneg lexicon.lookup words
  obtain ⟨o, ho⟩ :=
    @exists_search ⟨count, maxSteps, penalty, roots⟩ hnonneg lexicon.lookup words
  simp only [bestOutcome, demand, hpenalty, hcount, hmaxSteps, htrial, ho, bind, Except.bind,
    Except.mapError]
  split_ifs
  · exact ⟨_, rfl⟩
  · exact ⟨_, rfl⟩
  · exact ⟨_, rfl⟩

theorem exists_parseSentence (h : Searchable options) (words : List String) :
    ∃ ds events, parseSentence options roots lexicon words = .ok (ds, events) := by
  cases hmode : options.mode with
  | exhaustive => exact ⟨_, _, by simp only [parseSentence, hmode]; rfl⟩
  | deterministic => exact ⟨_, _, by simp only [parseSentence, hmode]; rfl⟩
  | best =>
    obtain ⟨o, ho⟩ := @exists_bestOutcome _ roots lexicon h hmode words
    exact ⟨o.results, o.events, by simp only [parseSentence, hmode, ho]; rfl⟩

/-- Only the best-first search breaks a run off. -/
theorem exists_parseSentences (h : Searchable options) (ss : List (List String)) :
    ∃ results, (parseSentences options roots lexicon ss).1 = .ok results := by
  induction ss with
  | nil => exact ⟨[], rfl⟩
  | cons words ss ih =>
    obtain ⟨rest, hrest⟩ := ih
    obtain ⟨ds, events, hwords⟩ := @exists_parseSentence _ roots lexicon h words
    refine ⟨ds :: rest, ?_⟩
    simp only [parseSentences, hwords, hrest]
    rfl

/-! ## What is printed -/

theorem print_json (hformat : options.format = some .json) {results : List (List (Scored Float))}
    (hne : results ≠ []) :
    print options results = .ok ((Export.records options.full results).render ++ "\n") := by
  have hsentences : (Export.sentences? (reported results)).getD results = results := by
    rw [Export.sentences?_reported, if_neg hne, Option.getD_some]
  simp only [print, hformat, hsentences]
  rfl

variable {earlier : List Report} {text : String}

theorem exit_runSentences (h : Searchable options) (hformat : options.format = some .json) :
    (runSentences options roots lexicon earlier text).exit = .status 0 := by
  obtain ⟨results, hresults⟩ := @exists_parseSentences _ roots lexicon h (sentences text)
  have hprint : ∃ out, print options results = .ok out := by
    simp only [print, hformat]
    exact ⟨_, rfl⟩
  obtain ⟨out, hout⟩ := hprint
  simp only [runSentences, hresults, Except.bind, hout]

theorem runSentences_json (hformat : options.format = some .json)
    (hexit : (runSentences options roots lexicon earlier text).exit = .status 0) :
    ∃ results, List.Forall₂ (Parses options roots lexicon) (sentences text) results ∧
      (results ≠ [] → ∃ out,
        (runSentences options roots lexicon earlier text).printed = .text out ∧
          Enumerates out (results.map (entry options.full))) := by
  cases hresults : (parseSentences options roots lexicon (sentences text)).1 with
  | error e =>
    simp only [runSentences, hresults, Except.bind] at hexit
    cases hexit
  | ok results =>
    refine ⟨results, forall₂_parses hresults, fun hne => ⟨_, ?_,
      @Export.enumerates_render options.full results "\n" (by simp; rfl)⟩⟩
    simp only [runSentences, hresults, Except.bind, print_json hformat hne]

theorem runParse_eq {w : Surroundings} (h : (runParse w options).exit = .status 0) :
    ∃ name lexicon roots text earlier, readLexicon w options = .ok (.ok (name, lexicon)) ∧
      readRoots options = .ok (.ok roots) ∧ readInput w options = .ok text ∧
      runParse w options = runSentences options roots lexicon earlier text := by
  unfold runParse at h ⊢
  split at h
  · cases h
  · cases h
  · next name lexicon hlexicon =>
    dsimp only at h ⊢
    split at h
    · cases h
    · cases h
    · next roots hroots =>
      split at h
      · cases h
      · next text htext => exact ⟨name, lexicon, roots, text, _, hlexicon, hroots, htext, rfl⟩

/-- **Reports in JSON.** The report of one or more sentences is an object with the records of each
sentence, scores included, under the numbers from one on. So is what a run prints, with an entry for
each line of its input that is not blank: the derivations of this line. A run ends well if it can
read the lexicon, the roots and its input, unless the settings of a best-first search are missing
or refused. -/
theorem json_entries (full : Bool) :
    (∀ results : List (List (Scored Float)), results ≠ [] →
      ∃ text, Export.report "json" full (reported results) = .ok text ∧
        Enumerates text (results.map (entry full))) ∧
    (∀ (w : Surroundings) (options : ParseOptions), options.format = some .json →
      options.full = full → (runParse w options).exit = .status 0 →
        ∃ name lexicon roots text results, readLexicon w options = .ok (.ok (name, lexicon)) ∧
          readRoots options = .ok (.ok roots) ∧ readInput w options = .ok text ∧
          List.Forall₂ (Parses options roots lexicon) (sentences text) results ∧
          results.length = (Text.lines text).countP (!·.all Text.isBlank) ∧
          (results ≠ [] → ∃ out, (runParse w options).printed = .text out ∧
            Enumerates out (results.map (entry full)))) ∧
    ∀ (w : Surroundings) (options : ParseOptions), options.format = some .json →
      Searchable options → ∀ name lexicon roots text,
        readLexicon w options = .ok (.ok (name, lexicon)) → readRoots options = .ok (.ok roots) →
          readInput w options = .ok text → (runParse w options).exit = .status 0 := by
  refine ⟨fun results hne => ⟨_, Export.report_json full hne, ?_⟩, ?_, ?_⟩
  · have htext := @Export.enumerates_render full results "" nofun
    rwa [String.append_empty] at htext
  · rintro w options hformat rfl hexit
    obtain ⟨name, lexicon, roots, text, earlier, hlexicon, hroots, htext, hrun⟩ := runParse_eq hexit
    rw [hrun] at hexit ⊢
    obtain ⟨results, hresults, hprinted⟩ := runSentences_json hformat hexit
    refine ⟨name, lexicon, roots, text, results, hlexicon, hroots, htext, hresults, ?_, hprinted⟩
    rw [← hresults.length_eq, length_sentences]
  · intro w options hformat hsearchable name lexicon roots text hlexicon hroots htext
    simp only [runParse, hlexicon, hroots, htext]
    exact exit_runSentences hsearchable hformat

/-- Without a sentence there is an entry all the same. -/
theorem json_entries_nil :
    Export.report "json" false (reported []) = .ok "\x7b\n    \"1\": []\n\x7d" ∧
      Enumerates "\x7b\n    \"1\": []\n\x7d" [.array []] ∧
      ¬ Enumerates "\x7b\n    \"1\": []\n\x7d" [] := by
  have hone : Enumerates "\x7b\n    \"1\": []\n\x7d" [.array []] :=
    @Export.enumerates_render false [[]] "" nofun
  refine ⟨by rfl, hone, ?_⟩
  obtain ⟨members, hmembers, -, hvalues⟩ := hone
  rintro ⟨members', hmembers', -, hvalues'⟩
  rw [hmembers] at hmembers'
  cases hmembers'
  rw [hvalues] at hvalues'
  cases hvalues'

/-- An input with a blank line between two others. -/
def twoLines : Surroundings :=
  ⟨fun _ => .ok (Lexicon.written [("I", .np)]).toUTF8, "I\n \nyou\n".toUTF8⟩

/-- The options of a run in JSON that looks for all derivations. -/
def inJson : ParseOptions :=
  ⟨some "lexicon.txt", none, some .json, .exhaustive, some 1, some 0, some 10, none, false, true⟩

theorem readLexicon_twoLines :
    readLexicon twoLines inJson = .ok (.ok ("lexicon.txt", Lexicon.ofPairs [("I", .np)])) := by
  have hfile : Lexicon.ofFile "lexicon.txt" (Lexicon.written [("I", .np)]).toUTF8 =
      .ok (Lexicon.ofPairs [("I", .np)]) :=
    Lexicon.ofFile_of_malformed (by decide) (by rfl) "lexicon.txt"
  have hread : readFile twoLines "lexicon.txt" =
      .ok (Lexicon.written [("I", .np)]).toUTF8 := by rfl
  simp only [readLexicon, inJson, demand, bind, Except.bind, hread, hfile]
  rfl

/-- The only word of the lexicon has one derivation, a word that is not in the lexicon none. -/
theorem results_twoLines {results : List (List (Scored Float))}
    (h : List.Forall₂ (Parses inJson none (Lexicon.ofPairs [("I", .np)])) [["I"], ["you"]]
      results) : results = [[⟨.leaf .np (some "I"), 0⟩], []] := by
  have hword : ∀ w ds, Parses inJson none (Lexicon.ofPairs [("I", .np)]) [w] ds →
      ds = (Lexicon.categoriesOf [("I", .np)] w).eraseDups.map
        fun c => ⟨.leaf c (some w), (0 : Float)⟩ := by
    rintro w ds ⟨events, hds⟩
    cases hds
    have hall : ∀ d ∈ parse (Lexicon.ofPairs [("I", .np)]).lookup [w],
        admits none d = true := fun _ _ => rfl
    dsimp only
    rw [List.filter_eq_self.mpr hall, parse_singleton, Lexicon.lookup_ofPairs, List.map_map]
    rfl
  cases h with
  | cons hone hrest =>
    cases hrest with
    | cons htwo hnil =>
      cases hnil
      rw [hword _ _ hone, hword _ _ htwo]
      rfl

theorem json_entries_twoLines :
    (∃ text, Export.report "json" false (reported [[], []]) = .ok text ∧
        Enumerates text [.array [], .array []]) ∧
      (runParse twoLines inJson).exit = .status 0 ∧
      ∃ out, (runParse twoLines inJson).printed = .text out ∧
        Enumerates out [entry false [⟨.leaf .np (some "I"), 0⟩], .array []] := by
  have hinput : readInput twoLines inJson = .ok "I\n \nyou\n" := by
    simp only [readInput, inJson, decode, twoLines, Text.decode?_toUTF8]
  have hroots : readRoots inJson = .ok (.ok none) := by rfl
  obtain ⟨hreport, hrun, hwell⟩ := json_entries false
  have hexit : (runParse twoLines inJson).exit = .status 0 :=
    hwell twoLines inJson rfl nofun _ _ _ _ readLexicon_twoLines hroots hinput
  obtain ⟨_, lexicon, roots, text, results, hlexicon, hroots', htext, hresults, -, hprinted⟩ :=
    hrun twoLines inJson rfl rfl hexit
  rw [readLexicon_twoLines] at hlexicon
  cases hlexicon
  rw [hroots] at hroots'
  cases hroots'
  rw [hinput] at htext
  cases htext
  obtain rfl := results_twoLines hresults
  exact ⟨hreport [[], []] (List.cons_ne_nil _ _), hexit, hprinted (List.cons_ne_nil _ _)⟩

end Command

end Categorial

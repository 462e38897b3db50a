import Categorial.Proofs.Search.Agreement
import Categorial.Proofs.Search.Estimate
import Categorial.Proofs.Search.HeapOrder

/-!
# Best-first search is optimal

With exact numbers the items come from the agenda in the order of their priorities, since whatever
comes on the agenda later has at least the priority of what it was made of (`Search.Ordered`). With
the cost as the weight of `Search.Saturated`, a derivation that is cheaper than a result cannot have
been missed: it is settled, and not by others, for these would be results as well and too many.

* `Search.Ordered.pass`, `Search.Ordered.take`: the moves keep the order.
* `search_optimal`: the results of a search are the best derivations of the sentence.
-/

namespace Categorial

open Categorial.Derivation

namespace Search

variable {score : Nat → Derivation → Option ℚ} {lexicon : LexicalEntries} {words : List String}
  {f : Frame ℚ} {taken : List (Item ℚ)} {q rest : Agenda (Item ℚ)} {item : Item ℚ}

theorem strictWeak_before : StrictWeak (Item.before : Item ℚ → Item ℚ → Bool) := by
  constructor
  · intro a b hab
    simp only [Item.before, decide_eq_true_eq, decide_eq_false_iff_not] at hab ⊢
    exact hab.asymm
  · intro a b c hba hcb
    simp only [Item.before, decide_eq_false_iff_not, not_lt] at hba hcb ⊢
    exact hba.trans hcb

/-- The agenda is a heap, the items taken came in order, and none of them is behind one on the
agenda. -/
structure Ordered (taken : List (Item ℚ)) (q : Agenda (Item ℚ)) : Prop where
  heap : q.IsHeap Item.before
  sorted : taken.Pairwise fun a b => a.priority ≤ b.priority
  later : ∀ a ∈ taken, ∀ b ∈ q.toList, a.priority ≤ b.priority

/-! ## The moves -/

theorem isHeap_foldl_insert (as : List (Item ℚ)) (hq : q.IsHeap Item.before) :
    (as.foldl (fun q a => q.insert Item.before a) q).IsHeap Item.before := by
  induction as generalizing q with
  | nil => exact hq
  | cons a as ih => exact ih (Agenda.isHeap_insert strictWeak_before hq a)

namespace Ordered

theorem start (leaves : List (List (Derivation × ℚ))) :
    Ordered [] (Search.start f leaves).agenda := by
  refine ⟨Agenda.isHeap_ofList strictWeak_before _, List.Pairwise.nil, ?_⟩
  intro a ha
  cases ha

theorem pass (h : Ordered taken q) (hout : q.remove? Item.before = some (item, rest)) :
    Ordered taken rest :=
  ⟨Agenda.isHeap_remove strictWeak_before h.heap hout, h.sorted,
    fun a ha b hb => h.later a ha b ((mem_of_remove hout).mpr (.inr hb))⟩

/-- The item that comes from the agenda has the least priority. -/
theorem priority_le (h : Ordered taken q) (hout : q.remove? Item.before = some (item, rest))
    {b : Item ℚ} (hb : b ∈ q.toList) : item.priority ≤ b.priority := by
  have hleast := Agenda.not_lt_of_remove? strictWeak_before h.heap hout hb
  simpa only [Item.before, decide_eq_false_iff_not, not_lt] using hleast

theorem take (h : Ordered taken q) (hout : q.remove? Item.before = some (item, rest))
    {as : List (Item ℚ)} (has : ∀ a ∈ as, item.priority ≤ a.priority) :
    Ordered (taken ++ [item]) (as.foldl (fun q a => q.insert Item.before a) rest) := by
  have hitem : item ∈ q.toList := (mem_of_remove hout).mpr (.inl rfl)
  have hbefore : ∀ a ∈ taken ++ [item], a.priority ≤ item.priority := by
    intro a ha
    rcases List.mem_append.mp ha with ha | ha
    · exact h.later a ha item hitem
    · rw [List.mem_singleton.mp ha]
  have hbehind : ∀ b ∈ (as.foldl (fun q a => q.insert Item.before a) rest).toList,
      item.priority ≤ b.priority := by
    intro b hb
    rcases mem_foldl_insert_iff.mp hb with hb | hb
    · exact has b hb
    · exact h.priority_le hout ((mem_of_remove hout).mpr (.inr hb))
  refine ⟨isHeap_foldl_insert as (Agenda.isHeap_remove strictWeak_before h.heap hout), ?_,
    fun a ha b hb => (hbefore a ha).trans (hbehind b hb)⟩
  refine List.pairwise_append.mpr ⟨h.sorted, List.pairwise_singleton _ _, fun a ha b hb => ?_⟩
  rw [List.mem_singleton.mp hb]
  exact hbefore a (List.mem_append_left _ ha)

end Ordered

/-- What is above two neighbours has at least the priority of each of them. -/
theorem priority_le_of_mem_parentItems (hestimates : Estimates score lexicon words f)
    (hpenalty : 0 ≤ f.request.penalty) {left right a : Item ℚ}
    (hleft : Placed score lexicon words f left) (hright : Placed score lexicon words f right)
    (hnext : left.stop = right.start) (ha : a ∈ parentItems f left right) :
    left.priority ≤ a.priority ∧ right.priority ≤ a.priority := by
  obtain ⟨p, hp, rfl⟩ := List.mem_map.mp ha
  have hparent := (hleft.parentItem hright hnext hp).2
  obtain ⟨i, u, l, hfitsl, rfl⟩ := hleft
  obtain ⟨k, v, r, hfitsr, rfl⟩ := hright
  obtain rfl : i + u.length = k := hnext
  rw [hparent]
  exact hestimates.priority_le_of_mem_parents hpenalty hfitsl hfitsr hp

/-- What comes on the agenda with an item has at least the priority of the item. -/
theorem priority_le_of_mem_joins (hestimates : Estimates score lexicon words f)
    (hpenalty : 0 ≤ f.request.penalty)
    (htaken : ∀ a ∈ taken, Placed score lexicon words f a) (hitem : item ∈ taken) {a : Item ℚ}
    (ha : a ∈ joins f taken item) : item.priority ≤ a.priority := by
  obtain ⟨left, hleft, right, hright, hnext, heither, p, hp, rfl⟩ := exists_of_mem_joins hitem ha
  obtain ⟨hlel, hler⟩ := priority_le_of_mem_parentItems hestimates hpenalty (htaken left hleft)
    (htaken right hright) hnext (List.mem_map_of_mem hp)
  rcases heither with rfl | rfl
  · exact hlel
  · exact hler

/-- Among derivations of one span, the ones taken before an item cost no more. -/
theorem cost_le_of_mem_taken
    (hplaced : ∀ a, a ∈ taken ∨ a ∈ q.toList → Placed score lexicon words f a)
    (hordered : Ordered taken q) (hout : q.remove? Item.before = some (item, rest))
    {e : Derivation} (he : itemAt score f item.start item.stop e ∈ taken) :
    cost score f.request.penalty item.start e ≤
      cost score f.request.penalty item.start item.derivation := by
  have hmem : item ∈ q.toList := (mem_of_remove hout).mpr (.inl rfl)
  obtain ⟨i, u, d, -, rfl⟩ := hplaced item (.inr hmem)
  have hle := hordered.later _ he _ hmem
  simpa only [itemAt, add_le_add_iff_right] using hle

/-! ## The best derivations -/

/-- The cost of a derivation grows with those of its parts. -/
theorem cost_above_le {penalty : ℚ} {i : Nat} {u : List String} {l left r right : Derivation}
    (g : Join) (x y : Category) (hl : Licensed lexicon u l) (hleft : Licensed lexicon u left)
    (hlel : cost score penalty i l ≤ cost score penalty i left)
    (hler : cost score penalty (i + u.length) r ≤ cost score penalty (i + u.length) right) :
    cost score penalty i (g.above x y l r) ≤ cost score penalty i (g.above x y left right) := by
  rw [cost_above hl, cost_above hleft]
  linarith

/-- When a search ends, no derivation of the sentence that is asked for and left out is cheaper than
a result. -/
theorem cost_le_of_notMem_results (hestimates : Estimates score lexicon words f)
    (hpenalty : 0 ≤ f.request.penalty) (hsize : f.size = words.length)
    (hsaturated : Saturated score lexicon words f (cost score f.request.penalty) taken q)
    (hordered : Ordered taken q) {d e : Derivation} (hfits : Fits score lexicon words 0 words d)
    (hadmits : f.request.admits d = true) (hd : d ∉ results f taken)
    (he : e ∈ results f taken) :
    cost score f.request.penalty 0 e ≤ cost score f.request.penalty 0 d := by
  by_contra hlt
  rw [not_le] at hlt
  have htaken := ((hsaturated.mem_results_iff hsize).mp he).2
  -- below the priority of the result nothing is left on the agenda
  have hsettled := hsaturated.settled
    (fun i j d =>
      (itemAt score f i j d).priority < (itemAt score f 0 words.length e).priority)
    (fun g x y hl hleft _ _ hlel hler =>
      cost_above_le g x y hl.licensed hleft.licensed hlel hler)
    (fun hle hlow => lt_of_le_of_lt (by simpa only [itemAt, add_le_add_iff_right] using hle) hlow)
    (fun hleft hright hp hlow =>
      have hle := hestimates.priority_le_of_mem_parents hpenalty hleft hright hp
      ⟨hle.1.trans_lt hlow, hle.2.trans_lt hlow⟩)
    (fun hlow hmem => absurd (hordered.later _ htaken _ hmem) (not_le.mpr hlow))
    hfits (by rwa [Nat.zero_add, hestimates.priority_words, hestimates.priority_words])
  rw [Nat.zero_add] at hsettled
  rcases hsaturated.results_of_settled hsize hsettled hadmits with hmem | ⟨ds, hds, hlength, hmem⟩
  · exact hd hmem
  · -- the derivations that stand for it and the result are too many
    have hnew : e ∉ ds := fun hmem' => absurd (hmem e hmem').2 (not_le.mpr hlt)
    have hmany := (List.nodup_cons.mpr ⟨hnew, hds⟩).length_le_of_subset
      (List.cons_subset.mpr ⟨he, fun d' hd' => (hmem d' hd').1⟩)
    have hbounded := hsaturated.bounded
    rw [results, List.length_map, List.length_cons] at hmany
    omega

theorem neg_cost_eq_total {ε : Type} {scorer : Scorer ε ℚ} {penalty : ℚ} {d : Derivation}
    (h : Licensed lexicon words d) :
    -cost scorer.leafScore penalty 0 d = scorer.total penalty d := by
  rw [cost_eq h, neg_neg]
  rfl

/-- The results come with their scores. -/
theorem score_eq_total {ε : Type} {scorer : Scorer ε ℚ} (hsize : f.size = words.length)
    (hsaturated : Saturated scorer.leafScore lexicon words f
      (cost scorer.leafScore f.request.penalty) taken q) {r : Scored ℚ}
    (hr : r ∈ scoredResults f taken) :
    r.score = scorer.total f.request.penalty r.derivation := by
  obtain ⟨a, ha, rfl⟩ := List.mem_map.mp hr
  obtain ⟨-, -, hfits, heq⟩ := (hsaturated.mem_found_iff hsize).mp ha
  rw [← neg_cost_eq_total hfits.licensed]
  exact congrArg (fun a : Item ℚ => -a.cost) heq

/-- The results come in the order of their scores. -/
theorem pairwise_scoredResults (hestimates : Estimates score lexicon words f)
    (hsize : f.size = words.length)
    (hsaturated : Saturated score lexicon words f (cost score f.request.penalty) taken q)
    (hordered : Ordered taken q) :
    (scoredResults f taken).Pairwise fun a b => b.score ≤ a.score := by
  have hpriority : ∀ a ∈ found f taken, a.priority = a.cost := by
    intro a ha
    obtain ⟨-, -, -, heq⟩ := (hsaturated.mem_found_iff hsize).mp ha
    rw [heq]
    exact hestimates.priority_words _
  refine List.pairwise_map.mpr ((hordered.sorted.filter _).imp_of_mem fun {a b} ha hb hab => ?_)
  rw [hpriority a ha, hpriority b hb] at hab
  exact neg_le_neg hab

/-- What is left out has no better score than a result. -/
theorem total_le_score {ε : Type} {scorer : Scorer ε ℚ}
    (hestimates : Estimates scorer.leafScore lexicon words f) (hpenalty : 0 ≤ f.request.penalty)
    (hsize : f.size = words.length)
    (hsaturated : Saturated scorer.leafScore lexicon words f
      (cost scorer.leafScore f.request.penalty) taken q)
    (hordered : Ordered taken q) {d : Derivation}
    (hd : d ∈ eligible scorer lexicon f.request words)
    (hout : d ∉ (scoredResults f taken).map (·.derivation)) {r : Scored ℚ}
    (hr : r ∈ scoredResults f taken) : scorer.total f.request.penalty d ≤ r.score := by
  obtain ⟨hfits, hadmits⟩ := mem_eligible_iff.mp hd
  have hmem : r.derivation ∈ results f taken := by
    rw [← map_derivation_scoredResults]
    exact List.mem_map_of_mem hr
  rw [map_derivation_scoredResults] at hout
  have hfits' := (hsaturated.fits_of_mem_results hsize hmem).1
  rw [score_eq_total hsize hsaturated hr, ← neg_cost_eq_total hfits.licensed,
    ← neg_cost_eq_total hfits'.licensed]
  apply neg_le_neg
  exact cost_le_of_notMem_results hestimates hpenalty hsize hsaturated hordered hfits hadmits hout
    hmem

/-- The end of a search with exact numbers. -/
theorem exists_ordered_concludes {request : Request ℚ} (score : Nat → Derivation → Option ℚ)
    (lexicon : LexicalEntries) (words : List String) (hpenalty : 0 ≤ request.penalty) :
    ∃ taken q,
      (Saturated score lexicon words (sentenceFrame score lexicon request words)
        (cost score request.penalty) taken q ∧ Ordered taken q) ∧
      Concludes (sentenceFrame score lexicon request words) taken q
        (ofLeaves request (sentenceLeaves score lexicon 0 words)) := by
  have hestimates := estimates_sentenceFrame score lexicon words request
  apply exists_concludes request (sentenceLeaves score lexicon 0 words) fun taken q =>
    Saturated score lexicon words (sentenceFrame score lexicon request words)
      (cost score request.penalty) taken q ∧ Ordered taken q
  · exact ⟨saturated_start _ _ _ _ _, .start _⟩
  · rintro taken q item rest ⟨hsaturated, hordered⟩ hout hpass
    refine ⟨hsaturated.pass hout hpass ?_, hordered.pass hout⟩
    intro e he _
    exact cost_le_of_mem_taken hsaturated.placed hordered hout he
  · rintro taken q item rest ⟨hsaturated, hordered⟩ hout hpass hopen
    have hnext := hsaturated.take (size_sentenceFrame request) hout hpass hopen
    have hplaced := fun a ha => hnext.placed a (.inl ha)
    refine ⟨hnext, hordered.take hout fun a ha => ?_⟩
    exact priority_le_of_mem_joins hestimates hpenalty hplaced (by simp) ha

end Search

open Search

/-- **Optimality.** With exact numbers, a search that its limit on the steps does not cut off
returns as many of the eligible derivations as asked for, or all there are, each once and with its
score, the best first, and none that is left out has a better score than one that is returned. -/
theorem search_optimal {ε : Type} (scorer : Scorer ε ℚ) (lexicon : LexicalEntries)
    (request : Request ℚ) (words : List String) (hpenalty : 0 ≤ request.penalty)
    (hanswers : Answers scorer lexicon 0 words) :
    ∃ o, search scorer lexicon request words = .ok o ∧
      CutOnlyByLimit scorer lexicon request words o ∧ (o.ending ≠ .gaveUp →
      o.results.length =
        min request.count.toNat (eligible scorer lexicon request words).length ∧
      (o.results.map (·.derivation)).Nodup ∧
      (∀ r ∈ o.results, r.derivation ∈ eligible scorer lexicon request words ∧
        r.score = scorer.total request.penalty r.derivation) ∧
      o.results.Pairwise (fun a b => b.score ≤ a.score) ∧
      ∀ d ∈ eligible scorer lexicon request words, d ∉ o.results.map (·.derivation) →
        ∀ r ∈ o.results, scorer.total request.penalty d ≤ r.score) := by
  obtain ⟨o, hsearch, hcut⟩ := exists_cutOnlyByLimit (not_lt.mpr hpenalty) hanswers
  refine ⟨o, hsearch, hcut, fun hending => ?_⟩
  rcases search_cases (not_lt.mpr hpenalty) hanswers with ⟨ending, hnothing, hnone⟩ | hleaves
  · cases hsearch.symm.trans hnothing
    simp [hnone]
  · cases hsearch.symm.trans hleaves
    have hestimates := estimates_sentenceFrame scorer.leafScore lexicon words request
    have hsize : (sentenceFrame scorer.leafScore lexicon request words).size = words.length :=
      size_sentenceFrame request
    obtain ⟨taken, q, ⟨hsaturated, hordered⟩, hconcludes⟩ :=
      exists_ordered_concludes scorer.leafScore lexicon words hpenalty
    obtain ⟨hnodup, hmem, hlength⟩ := hconcludes.results_spec hsaturated hsize hending
    rw [hconcludes.results_eq] at hnodup hmem hlength ⊢
    refine ⟨hlength, hnodup, ?_, ?_, ?_⟩
    · intro r hr
      exact ⟨hmem _ (List.mem_map_of_mem hr), score_eq_total hsize hsaturated hr⟩
    · exact pairwise_scoredResults hestimates hsize hsaturated hordered
    · intro d hd hout r hr
      exact total_le_score hestimates hpenalty hsize hsaturated hordered hd hout hr

/-- Of the two derivations of a clause the one without raising is better by the penalty. -/
theorem search_optimal_clause :
    let scorer : Scorer Unit ℚ := fun _ _ c => .ok (some (if c = .np then -1 else -2))
    let request : Request ℚ := ⟨1, 100, 5, none⟩
    0 ≤ request.penalty ∧
      ∃ o, search scorer (verbAndNounPhrases "saw") request ["they", "saw", "them"] = .ok o ∧
        o.ending ≠ .gaveUp ∧ o.results = [⟨plainClause "they" "saw" "them", -4⟩] := by
  intro scorer request
  have hpenalty : 0 ≤ request.penalty := by norm_num [request]
  obtain ⟨o, hsearch, hcut, hoptimal⟩ := search_optimal scorer (verbAndNounPhrases "saw") request
    ["they", "saw", "them"] hpenalty fun _ _ _ _ => ⟨_, rfl⟩
  have hleaves : leafCount scorer (verbAndNounPhrases "saw") ["they", "saw", "them"] = 3 := by
    decide
  have hending : o.ending ≠ .gaveUp :=
    ending_ne_clause (by decide) (by decide) hleaves (by decide) hcut
  have heligible : eligible scorer (verbAndNounPhrases "saw") request ["they", "saw", "them"] =
      [plainClause "they" "saw" "them", raisedClause "they" "saw" "them"] := by
    rw [eligible, parse_clause (by decide) (by decide)]
    decide
  have hverb : Category.forward (.backward .s .np) .np ≠ .np := by decide
  have hplain : scorer.total request.penalty (plainClause "they" "saw" "them") = -4 := by
    norm_num [Scorer.total, plainClause, verbPhrase, Derivation.leaves, raisedCount,
      Scorer.leafScore, scorer, request, hverb]
  have hraised : scorer.total request.penalty (raisedClause "they" "saw" "them") = -9 := by
    norm_num [Scorer.total, raisedClause, raisedSubject, Derivation.leaves, raisedCount,
      Scorer.leafScore, scorer, request, hverb]
  obtain ⟨hlength, -, hscores, -, hbest⟩ := hoptimal hending
  rw [heligible] at hlength hscores hbest
  obtain ⟨r, hr⟩ := List.length_eq_one_iff.mp hlength
  rw [hr] at hscores hbest
  obtain ⟨hmem, hscore⟩ := hscores r List.mem_cons_self
  refine ⟨hpenalty, o, hsearch, hending, ?_⟩
  simp only [List.mem_cons, List.not_mem_nil, or_false] at hmem
  rcases hmem with hmem | hmem
  · rw [hmem, hplain] at hscore
    rw [hr, ← hscore, ← hmem]
  · -- the plain derivation is left out and would be better
    have hout : plainClause "they" "saw" "them" ∉ [r].map (·.derivation) := by
      rw [List.map_singleton, hmem]
      decide
    have hle := hbest _ List.mem_cons_self hout r List.mem_cons_self
    rw [hplain, hscore, hmem, hraised] at hle
    norm_num at hle

end Categorial

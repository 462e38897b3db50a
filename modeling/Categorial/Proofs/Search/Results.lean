import Mathlib.Data.List.Perm.Subperm
import Categorial.Proofs.Chart.Filling
import Categorial.Proofs.Search.Saturation

/-!
# What a search returns

What a search returns is among what exhaustive parsing finds, restricted to available leaves and to
the categories that are asked for, and it is as much of it as is asked for. This rests on
`Search.Saturated` with all weights alike, so nothing is assumed of the numbers, and the order in
which items come from the agenda does not matter.

* `Search.Saturated.length_results`: how many results there are when a search ends.
* `Search.search_starts`, `Search.search_cases`: the ways in which a search starts.
* `Search.exists_concludes`: the history that a search ends with.
* `Search.Concludes.results_spec`: what it returns if it is not cut off.
-/

namespace Categorial

open Categorial.Derivation

/-- Whether the category of a derivation is one that is asked for. -/
def Request.admits {α : Type} (request : Request α) (d : Derivation) : Bool :=
  match request.roots with
  | none => true
  | some cs => cs.any fun c => d.category == some c

/-- The derivations that a search may return: those found by exhaustive parsing whose leaves are all
available and whose category is asked for. -/
def eligible {ε α : Type} (scorer : Scorer ε α) (lexicon : LexicalEntries) (request : Request α)
    (words : List String) : List Derivation :=
  (parse lexicon words).filter fun d =>
    Search.available scorer.leafScore 0 d && request.admits d

namespace Search

/-! ## Eligible derivations -/

section

variable {ε α : Type} {scorer : Scorer ε α} {lexicon : LexicalEntries} {request : Request α}
  {words : List String}

theorem mem_eligible_iff {d : Derivation} :
    d ∈ eligible scorer lexicon request words ↔
      Fits scorer.leafScore lexicon words 0 words d ∧ request.admits d = true := by
  rw [eligible, List.mem_filter, mem_parse_iff, Bool.and_eq_true, fits_words_iff, and_assoc]

theorem nodup_eligible : (eligible scorer lexicon request words).Nodup :=
  (nodup_parse lexicon words).filter _

theorem eligible_eq_nil_of_leavesAt {p : String × Nat} (hp : p ∈ words.zipIdx)
    (hnone : leavesAt scorer.leafScore lexicon p.2 p.1 = []) :
    eligible scorer lexicon request words = [] := by
  refine List.eq_nil_iff_forall_not_mem.mpr fun d hd => ?_
  exact (mem_eligible_iff.mp hd).1.leavesAt_ne_nil p hp hnone

theorem admits_category (f : Frame α) (d : Derivation) :
    f.admits d.category = f.request.admits d := by
  unfold Frame.admits Request.admits
  cases f.request.roots with
  | none => rfl
  | some cs =>
    cases hd : d.category with
    | none => simp
    | some c =>
      simp only [List.contains_eq_any_beq]
      rfl

end

/-! ## Results -/

/-- The weight of all derivations where they weigh alike. -/
inductive Alike
  | one

instance : Preorder Alike where
  le _ _ := True
  le_refl _ := trivial
  le_trans _ _ _ _ _ := trivial

section

variable {α β : Type} [Add α] [Sub α] [Neg α] [Mul α] [OfNat α 0] [OfNat α 1] [Preorder β]
  {score : Nat → Derivation → Option α} {lexicon : LexicalEntries}
  {words : List String} {f : Frame α} {w : Nat → Derivation → β} {taken : List (Item α)}
  {q : Agenda (Item α)}

namespace Saturated

theorem mem_found_iff (h : Saturated score lexicon words f w taken q)
    (hsize : f.size = words.length) {a : Item α} :
    a ∈ found f taken ↔
      a ∈ taken ∧ f.request.admits a.derivation = true ∧
        Fits score lexicon words 0 words a.derivation ∧
        a = itemAt score f 0 words.length a.derivation := by
  simp only [found, List.mem_filter, Bool.and_eq_true, admits_category, Frame.isWhole,
    decide_eq_true_eq]
  constructor
  · rintro ⟨ha, ⟨hstart, hstop⟩, hadmits⟩
    obtain ⟨i, u, d, hfits, rfl⟩ := h.placed a (.inl ha)
    simp only [start_itemAt] at hstart
    subst hstart
    have hlength : u.length = words.length := by simpa [hsize] using hstop
    obtain rfl := hfits.eq_words hlength
    exact ⟨ha, hadmits, hfits, by rw [Nat.zero_add, derivation_itemAt]⟩
  · rintro ⟨ha, hadmits, -, heq⟩
    exact ⟨ha, ⟨by rw [heq, start_itemAt], by rw [heq, stop_itemAt, hsize]⟩, hadmits⟩

theorem mem_results_iff (h : Saturated score lexicon words f w taken q)
    (hsize : f.size = words.length) {d : Derivation} :
    d ∈ results f taken ↔
      f.request.admits d = true ∧ itemAt score f 0 words.length d ∈ taken := by
  simp only [results, List.mem_map, h.mem_found_iff hsize]
  constructor
  · rintro ⟨a, ⟨ha, hadmits, -, heq⟩, rfl⟩
    exact ⟨hadmits, heq ▸ ha⟩
  · rintro ⟨hadmits, hmem⟩
    obtain ⟨u, hfits, hu⟩ := (h.placed _ (.inl hmem)).fits
    obtain rfl := hfits.eq_words (by omega)
    exact ⟨_, ⟨hmem, hadmits, hfits, rfl⟩, rfl⟩

theorem fits_of_mem_results (h : Saturated score lexicon words f w taken q)
    (hsize : f.size = words.length) {d : Derivation} (hd : d ∈ results f taken) :
    Fits score lexicon words 0 words d ∧ f.request.admits d = true := by
  obtain ⟨a, ha, rfl⟩ := List.mem_map.mp hd
  obtain ⟨-, hadmits, hfits, -⟩ := (h.mem_found_iff hsize).mp ha
  exact ⟨hfits, hadmits⟩

theorem nodup_results (h : Saturated score lexicon words f w taken q)
    (hsize : f.size = words.length) : (results f taken).Nodup := by
  refine (h.distinct.filter _).map_on fun a ha b hb hab => ?_
  obtain ⟨-, -, -, heqa⟩ := (h.mem_found_iff hsize).mp ha
  obtain ⟨-, -, -, heqb⟩ := (h.mem_found_iff hsize).mp hb
  rw [heqa, heqb, hab]

/-- A derivation of the sentence that is settled but no result makes place for enough others. -/
theorem results_of_settled (h : Saturated score lexicon words f w taken q)
    (hsize : f.size = words.length) {d : Derivation}
    (hsettled : Settled score f w taken 0 words.length d) (hadmits : f.request.admits d = true) :
    d ∈ results f taken ∨ ∃ ds : List Derivation, ds.Nodup ∧ f.limit ≤ ds.length ∧
      ∀ e ∈ ds, e ∈ results f taken ∧ w 0 e ≤ w 0 d := by
  obtain ⟨ds, hnodup, hds, hend⟩ := hsettled
  have hmem : ∀ e ∈ ds, e ∈ results f taken ∧ w 0 e ≤ w 0 d := by
    intro e he
    obtain ⟨htaken, hcategory, hle⟩ := hds e he
    have hadmits' : f.request.admits e = true := by
      rw [← admits_category, hcategory, admits_category, hadmits]
    exact ⟨(h.mem_results_iff hsize).mpr ⟨hadmits', htaken⟩, hle⟩
  rcases hend with hself | hlength
  · exact .inl (hmem d hself).1
  · exact .inr ⟨ds, hnodup, hlength, hmem⟩

/-- With all weights alike nothing is claimed but that enough derivations are taken. -/
theorem forget (h : Saturated score lexicon words f w taken q) :
    Saturated score lexicon words f (fun _ _ => Alike.one) taken q := by
  have hforget : ∀ {i j d}, Accounted score f w taken q i j d →
      Accounted score f (fun _ _ => Alike.one) taken q i j d := by
    rintro i j d (hmem | ⟨ds, hnodup, hds, hend⟩)
    · exact .inl hmem
    · exact .inr ⟨ds, hnodup, fun e he => ⟨(hds e he).1, (hds e he).2.1, le_refl _⟩, hend⟩
  exact ⟨h.placed, h.distinct, h.bounded,
    fun i x c hx hc hscore => hforget (h.leaves i x c hx hc hscore),
    fun i k j left right hl hr p hp => hforget (h.joins i k j left right hl hr p hp)⟩

/-- When a search ends, there are as many results as asked for, or as there are at all. -/
theorem length_results (h : Saturated score lexicon words f w taken q)
    (hsize : f.size = words.length)
    (hend : q.toList = [] ∨ f.limit ≤ (results f taken).length) {ds : List Derivation}
    (hnodup : ds.Nodup)
    (hds : ∀ d, d ∈ ds ↔ Fits score lexicon words 0 words d ∧ f.request.admits d = true) :
    (results f taken).length = min f.limit ds.length := by
  have hbounded : (results f taken).length ≤ f.limit := by
    rw [results, List.length_map]
    exact h.bounded
  have hle : (results f taken).length ≤ ds.length :=
    (h.nodup_results hsize).length_le_of_subset fun d hd =>
      (hds d).mpr (h.fits_of_mem_results hsize hd)
  by_cases henough : f.limit ≤ (results f taken).length
  · omega
  · have hempty := hend.resolve_right henough
    -- nothing is left on the agenda, so every derivation is settled, and none by others
    have hsub : ds ⊆ results f taken := by
      intro d hd
      obtain ⟨hfits, hadmits⟩ := (hds d).mp hd
      have hsettled := h.forget.settled (fun _ _ _ => True)
        (fun _ _ _ _ _ _ _ _ _ => le_refl _) (fun _ _ => trivial)
        (fun _ _ _ _ => ⟨trivial, trivial⟩) (fun _ => by simp [hempty]) hfits trivial
      rw [Nat.zero_add] at hsettled
      rcases h.forget.results_of_settled hsize hsettled hadmits with hmem | ⟨es, hes, hlength, hmem⟩
      · exact hmem
      · have := hes.length_le_of_subset fun e he => (hmem e he).1
        omega
    have := hnodup.length_le_of_subset hsub
    omega

end Saturated

/-! ## The start -/

theorem Placed.leaf {a : Item α}
    (ha : a ∈ leafItems f (sentenceLeaves score lexicon 0 words)) :
    Placed score lexicon words f a := by
  obtain ⟨i, x, c, hx, hc, hscore, rfl⟩ := mem_leafItems_iff.mp ha
  exact ⟨i, [x], _, .leaf hx hc hscore, rfl⟩

omit [Mul α] [OfNat α 1] in
/-- At the start the agenda holds the leaves. -/
theorem mem_agenda_start_iff [LT α] [DecidableLT α] (f : Frame α)
    (leaves : List (List (Derivation × α))) {a : Item α} :
    a ∈ (start f leaves).agenda.toList ↔ a ∈ leafItems f leaves :=
  (Agenda.perm_ofList Item.before _).mem_iff

theorem saturated_start [LT α] [DecidableLT α] (score : Nat → Derivation → Option α)
    (lexicon : LexicalEntries) (words : List String) (f : Frame α) (w : Nat → Derivation → β) :
    Saturated score lexicon words f w []
      (start f (sentenceLeaves score lexicon 0 words)).agenda := by
  refine ⟨?_, List.nodup_nil, Nat.zero_le _, ?_, ?_⟩
  · rintro a (ha | ha)
    · cases ha
    · exact .leaf ((mem_agenda_start_iff f _).mp ha)
  · intro i x c hx hc hscore
    exact .inl ((mem_agenda_start_iff f _).mpr
      (mem_leafItems_iff.mpr ⟨i, x, c, hx, hc, hscore, rfl⟩))
  · intro i k j left right hl
    cases hl

end

section

variable {ε α : Type} [Add α] [Sub α] [Neg α] [Mul α] [OfNat α 0] [OfNat α 1] [LT α]
  [DecidableLT α] {scorer : Scorer ε α} {lexicon : LexicalEntries} {words : List String}

/-- Whatever is requested, a search finds a word without available leaf, and then nothing is
eligible, or whatever is requested, it starts from the leaves of the sentence. -/
theorem search_starts (hanswers : Answers scorer lexicon 0 words) :
    (∃ ending, ending ≠ .gaveUp ∧ ∀ request : Request α, ¬ request.penalty < 0 →
        search scorer lexicon request words = .ok ⟨[], 0, ending⟩ ∧
          eligible scorer lexicon request words = []) ∨
      ∀ request : Request α, ¬ request.penalty < 0 → search scorer lexicon request words =
        .ok (ofLeaves request (sentenceLeaves scorer.leafScore lexicon 0 words)) := by
  unfold search
  cases words with
  | nil =>
    refine .inl ⟨.noWords, nofun, fun request _ =>
      ⟨rfl, List.eq_nil_iff_forall_not_mem.mpr fun d hd => ?_⟩⟩
    exact (mem_eligible_iff.mp hd).1.licensed.ne_nil rfl
  | cons word words =>
    rw [List.isEmpty_cons]
    rcases leavesFrom_spec hanswers with ⟨unknown, hfrom, p, hp, hnone⟩ | hfrom
    · refine .inl ⟨.unknownWord unknown, nofun, fun request hpenalty => ?_⟩
      rw [if_neg Bool.false_ne_true, if_neg hpenalty, hfrom]
      exact ⟨rfl, eligible_eq_nil_of_leavesAt hp hnone⟩
    · refine .inr fun request hpenalty => ?_
      rw [if_neg Bool.false_ne_true, if_neg hpenalty, hfrom]

theorem search_cases {request : Request α} (hpenalty : ¬ request.penalty < 0)
    (hanswers : Answers scorer lexicon 0 words) :
    (∃ ending, search scorer lexicon request words = .ok ⟨[], 0, ending⟩ ∧
        eligible scorer lexicon request words = []) ∨
      search scorer lexicon request words =
        .ok (ofLeaves request (sentenceLeaves scorer.leafScore lexicon 0 words)) := by
  rcases search_starts hanswers with ⟨ending, -, hnone⟩ | hstart
  · exact .inl ⟨ending, hnone request hpenalty⟩
  · exact .inr (hstart request hpenalty)

end

/-- The outcome of a search is that of a history: its results, and unless the search was cut off,
nothing is left on the agenda or enough is found. -/
structure Concludes {α : Type} [Neg α] (f : Frame α) (taken : List (Item α))
    (q : Agenda (Item α)) (o : Outcome α) : Prop where
  results_eq : o.results = scoredResults f taken
  complete : o.ending ≠ .gaveUp → q.toList = [] ∨ f.limit ≤ (results f taken).length

section

variable {ε α : Type} [Add α] [Sub α] [Neg α] [Mul α] [OfNat α 0] [OfNat α 1] [LT α]
  [DecidableLT α]

/-- A search ends with a history that has any property which the moves keep. -/
theorem exists_concludes (request : Request α) (leaves : List (List (Derivation × α)))
    (P : List (Item α) → Agenda (Item α) → Prop)
    (hstart : P [] (start (frame request leaves) leaves).agenda)
    (hover : ∀ taken q item rest, P taken q → q.remove? Item.before = some (item, rest) →
      PassedOver (frame request leaves) taken item → P taken rest)
    (htake : ∀ taken q item rest, P taken q → q.remove? Item.before = some (item, rest) →
      ¬ PassedOver (frame request leaves) taken item →
      (found (frame request leaves) taken).length < (frame request leaves).limit →
      P (taken ++ [item]) ((joins (frame request leaves) (taken ++ [item]) item).foldl
        (fun q a => q.insert Item.before a) rest)) :
    ∃ taken q, P taken q ∧ Concludes (frame request leaves) taken q (ofLeaves request leaves) := by
  obtain ⟨taken, hrec, hP, hfinished⟩ := run_induction hover htake request.maxSteps.toNat
    (records_start _ leaves) hstart
  refine ⟨taken, _, hP, hrec.results, ?_⟩
  intro hending
  have hcut : (run (frame request leaves) request.maxSteps.toNat
      (start (frame request leaves) leaves)).2 = false := by
    simp only [ofLeaves] at hending
    split at hending
    · exact absurd rfl hending
    · next hcut => simpa using hcut
  have hlength := congrArg List.length hrec.results
  rw [scoredResults, List.length_map, Array.length_toList] at hlength
  rcases Bool.or_eq_true_iff.mp (hfinished hcut) with hempty | henough
  · have hheap := Array.isEmpty_iff.mp hempty
    exact .inl (by rw [Agenda.toList, hheap])
  · rw [decide_eq_true_eq, hlength] at henough
    exact .inr (by rwa [results, List.length_map])

variable {β : Type} [Preorder β] {scorer : Scorer ε α} {lexicon : LexicalEntries}
  {words : List String} {f : Frame α} {w : Nat → Derivation → β} {taken : List (Item α)}
  {q : Agenda (Item α)} {o : Outcome α}

omit [LT α] [DecidableLT α] in
/-- What a search returns of the eligible derivations if it is not cut off. -/
theorem Concludes.results_spec (hconcludes : Concludes f taken q o)
    (h : Saturated scorer.leafScore lexicon words f w taken q) (hsize : f.size = words.length)
    (hending : o.ending ≠ .gaveUp) :
    (o.results.map (·.derivation)).Nodup ∧
      (∀ d ∈ o.results.map (·.derivation), d ∈ eligible scorer lexicon f.request words) ∧
      o.results.length = min f.limit (eligible scorer lexicon f.request words).length := by
  have hlength := h.length_results hsize (hconcludes.complete hending) nodup_eligible
    fun d => mem_eligible_iff
  rw [← map_derivation_scoredResults, ← hconcludes.results_eq, List.length_map] at hlength
  rw [hconcludes.results_eq, map_derivation_scoredResults, ← hconcludes.results_eq]
  refine ⟨h.nodup_results hsize, ?_, hlength⟩
  intro d hd
  exact mem_eligible_iff.mpr (h.fits_of_mem_results hsize hd)

end

end Search

end Categorial

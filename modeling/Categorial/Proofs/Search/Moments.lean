import Categorial.Proofs.Search.Agreement

/-!
# Every moment of a search

A step of a search changes the state in several places, one after the other: an item leaves the
agenda, is noted and filed, and the items above it and each of its neighbours come on the agenda.
`Search.moments` lists the states after each of these changes; the last one is that in which the
step leaves the search. None of the changes brings in a derivation that is not licensed for the
words of its span, or an item whose cost is not that of its derivation, so neither do all of them
together. What a search reports of a derivation is therefore determined by the derivation.

* `Search.Sound`: what is true of a state at every moment.
* `Search.step_mem_moments`: the outcome of a step is one of its moments.
* `Search.Sound.of_mem_moments`, `Search.Sound.run`: one step and a whole run.
* `search_sound_at_every_moment`: every moment of every search, and the scores of its results.
-/

namespace Categorial

namespace Search

open Categorial.Derivation

/-! ## The start of a search -/

section

variable {ε α : Type} {scorer : Scorer ε α} {lexicon : LexicalEntries} {words : List String}

theorem exists_ok_of_bind {β : Type} {x : Except ε α} {g : α → Except ε β} {b : β}
    (h : (x >>= g) = .ok b) : ∃ a, x = .ok a ∧ g a = .ok b := by
  cases x with
  | error e => cases h
  | ok a => exact ⟨a, rfl, h⟩

/-- Where the leaves of a word are found, there is an answer for each of its categories. -/
theorem answers_of_scoredLeaves {position : Nat} {word : String} {ls : List (Derivation × α)}
    (h : scoredLeaves scorer lexicon position word = .ok ls) :
    ∀ c ∈ lexicon word, ∃ s, scorer position word c = .ok s := by
  obtain ⟨scored, hscored, -⟩ := exists_ok_of_bind h
  clear h
  generalize lexicon word = cs at hscored
  induction cs generalizing scored with
  | nil => nofun
  | cons c cs ih =>
    rw [List.mapM_cons] at hscored
    obtain ⟨leaf, hleaf, hrest⟩ := exists_ok_of_bind hscored
    obtain ⟨leaves, hleaves, -⟩ := exists_ok_of_bind hrest
    obtain ⟨s, hs, -⟩ := exists_ok_of_bind hleaf
    exact List.forall_mem_cons.mpr ⟨⟨s, hs⟩, ih leaves hleaves⟩

/-- A search that starts does so with the available leaves of the sentence. -/
theorem eq_sentenceLeaves_of_leavesFrom {position : Nat} {leaves : List (List (Derivation × α))}
    (h : leavesFrom scorer lexicon position words = .ok (.inr leaves)) :
    leaves = sentenceLeaves scorer.leafScore lexicon position words := by
  induction words generalizing position leaves with
  | nil =>
    cases h
    rfl
  | cons word words ih =>
    obtain ⟨ls, hls, h⟩ := exists_ok_of_bind h
    have hword := scoredLeaves_eq (answers_of_scoredLeaves hls)
    obtain rfl := Except.ok.inj (hls.symm.trans hword)
    cases hleaves : leavesAt scorer.leafScore lexicon position word with
    | nil =>
      rw [hleaves] at h
      cases h
    | cons leaf ls =>
      rw [hleaves] at h
      obtain ⟨found, hfound, h⟩ := exists_ok_of_bind h
      cases found with
      | inl unknown => cases h
      | inr rest =>
        cases h
        rw [ih hfound, ← hleaves]
        rfl

end

variable {α : Type} [Add α] [Sub α] [Neg α] [Mul α] [OfNat α 0] [OfNat α 1]

/-! ## Moments -/

section

variable [LT α] [DecidableLT α]

/-- The agenda and the cache after each of the items above two neighbours has come on the agenda,
with the agenda as it was before in front. -/
def pushMoments (f : Frame α) (left right : Item α) (p : Agenda (Item α) × Cache) :
    List (Agenda (Item α) × Cache) :=
  let (ds, cache) := (Derivation.cachedParents left.derivation right.derivation).run p.2
  (ds.scanl (fun q d => q.insert Item.before (parentItem f left right d)) p.1).map (·, cache)

/-- The same for several pairs of neighbours. -/
def frontMoments (f : Frame α) :
    List (Item α × Item α) → Agenda (Item α) × Cache → List (Agenda (Item α) × Cache)
  | [], p => [p]
  | (left, right) :: pairs, p =>
    pushMoments f left right p ++ frontMoments f pairs (pushParents f left right p)

/-- The states after each change that `expand` makes. -/
def expandMoments (f : Frame α) (item : Item α) (s : State α) : List (State α) :=
  let byStart := s.byStart.insert item.start item
  let byStop := s.byStop.insert item.stop item
  let pairs := (byStart.group item.stop).map (fun right => (item, right)) ++
    (byStop.group item.start).map fun left => (left, item)
  { s with byStart := byStart } :: { s with byStart := byStart, byStop := byStop } ::
    (frontMoments f pairs (s.agenda, s.cache)).map fun front =>
      { s with agenda := front.1, cache := front.2, byStart := byStart, byStop := byStop }

/-- The states after each change that `accept` makes. -/
def acceptMoments (f : Frame α) (item : Item α) (s : State α) : List (State α) :=
  let s := { s with kept := s.kept.insert item.slot item.derivation }
  s :: if item.start = 0 ∧ item.stop = f.size then
    if f.admits item.derivation.category then
      [{ s with results := s.results.push ⟨item.derivation, -item.cost⟩ }]
    else []
  else expandMoments f item s

/-- The states after each change that a step makes. -/
def moments (f : Frame α) (s : State α) : List (State α) :=
  match s.agenda.remove? Item.before with
  | none => []
  | some (item, agenda) =>
    let s := { s with agenda := agenda, steps := s.steps + 1 }
    s :: if s.passesOver f item then [] else acceptMoments f item s

/-- The states that a search passes through from a given one: those between two steps, and those
inside of a step. -/
inductive Passes (f : Frame α) (origin : State α) : State α → Prop
  | between (n : Nat) : Passes f origin (run f n origin).1
  | inside (n : Nat) {s : State α} (hopen : (run f n origin).1.isFinished f = false)
      (hs : s ∈ moments f (run f n origin).1) : Passes f origin s

/-! ## The last moment -/

theorem pushParents_mem_pushMoments (f : Frame α) (left right : Item α)
    (p : Agenda (Item α) × Cache) : pushParents f left right p ∈ pushMoments f left right p :=
  List.mem_map.mpr ⟨_, List.mem_of_getLast? List.getLast?_scanl, rfl⟩

theorem foldl_mem_frontMoments (f : Frame α) (pairs : List (Item α × Item α))
    (p : Agenda (Item α) × Cache) :
    pairs.foldl (fun p lr => pushParents f lr.1 lr.2 p) p ∈ frontMoments f pairs p := by
  induction pairs generalizing p with
  | nil => exact List.mem_singleton_self p
  | cons lr pairs ih => exact List.mem_append_right _ (ih _)

theorem expand_mem_expandMoments (f : Frame α) (item : Item α) (s : State α) :
    expand f item s ∈ expandMoments f item s := by
  refine List.mem_cons_of_mem _ (List.mem_cons_of_mem _ (List.mem_map.mpr
    ⟨_, foldl_mem_frontMoments f _ _, ?_⟩))
  rw [List.foldl_append, List.foldl_map, List.foldl_map]
  rfl

theorem accept_mem_acceptMoments (f : Frame α) (item : Item α) (s : State α) :
    accept f item s ∈ acceptMoments f item s := by
  unfold accept acceptMoments
  dsimp only
  split
  · split
    · exact List.mem_cons_of_mem _ List.mem_cons_self
    · exact List.mem_cons_self
  · exact List.mem_cons_of_mem _ (expand_mem_expandMoments f item _)

/-- The outcome of a step is one of its moments, unless nothing is left to do. -/
theorem step_mem_moments (f : Frame α) (s : State α) : step f s = s ∨ step f s ∈ moments f s := by
  unfold step moments
  cases s.agenda.remove? Item.before with
  | none => exact .inl rfl
  | some out =>
    dsimp only
    split
    · exact .inr List.mem_cons_self
    · exact .inr (List.mem_cons_of_mem _ (accept_mem_acceptMoments f _ _))

end

/-! ## Single changes -/

/-- What is true of a state at every moment: its items belong to derivations that fit, each filed in
its place, no more derivations of a slot are kept than are asked for, each once, the scores of
the results are their costs, negated, and the cache is true. -/
structure Sound (score : Nat → Derivation → Option α) (lexicon : LexicalEntries)
    (words : List String) (f : Frame α) (s : State α) : Prop where
  agenda : ∀ a ∈ s.agenda.toList, Placed score lexicon words f a
  byStart : ∀ k, ∀ a ∈ s.byStart.group k, Placed score lexicon words f a ∧ a.start = k
  byStop : ∀ k, ∀ a ∈ s.byStop.group k, Placed score lexicon words f a ∧ a.stop = k
  nodup : ∀ slot, (s.kept.group slot).Nodup
  bounded : ∀ slot, (s.kept.group slot).length ≤ f.limit
  kept : ∀ slot, ∀ d ∈ s.kept.group slot,
    ∃ a, Placed score lexicon words f a ∧ a.slot = slot ∧ a.derivation = d
  results : ∀ r ∈ s.results.toList, r.score = -cost score f.request.penalty 0 r.derivation
  cache : s.cache.Valid

/-- What is true of agenda and cache while items come on the agenda. -/
structure FrontSound (score : Nat → Derivation → Option α) (lexicon : LexicalEntries)
    (words : List String) (f : Frame α) (p : Agenda (Item α) × Cache) : Prop where
  agenda : ∀ a ∈ p.1.toList, Placed score lexicon words f a
  cache : p.2.Valid

variable {score : Nat → Derivation → Option α} {lexicon : LexicalEntries} {words : List String}
  {f : Frame α} {item left right : Item α} {s : State α}

namespace Sound

theorem keep (h : Sound score lexicon words f s) (hitem : Placed score lexicon words f item)
    (hpass : s.passesOver f item = false) :
    Sound score lexicon words f
      { s with kept := s.kept.insert item.slot item.derivation } := by
  simp only [State.passesOver, Bool.or_eq_false_iff, decide_eq_false_iff_not, Nat.not_le,
    List.contains_eq_mem] at hpass
  obtain ⟨hlength, hnew⟩ := hpass
  refine ⟨h.agenda, h.byStart, h.byStop, fun slot => ?_, fun slot => ?_, fun slot d hd => ?_,
    h.results, h.cache⟩
  · rw [Grouped.group_insert]
    split
    · next hslot =>
      obtain rfl := eq_of_beq hslot
      exact (h.nodup _).append (List.nodup_singleton _) (by simpa using hnew)
    · exact h.nodup slot
  · rw [Grouped.group_insert]
    split
    · next hslot =>
      obtain rfl := eq_of_beq hslot
      rw [List.length_append]
      exact hlength
    · exact h.bounded slot
  · rw [Grouped.group_insert] at hd
    split at hd
    · next hslot =>
      obtain rfl := eq_of_beq hslot
      rcases List.mem_append.mp hd with hd | hd
      · exact h.kept _ d hd
      · exact ⟨item, hitem, rfl, (List.mem_singleton.mp hd).symm⟩
    · exact h.kept slot d hd

theorem result (h : Sound score lexicon words f s) (hitem : Placed score lexicon words f item)
    (hstart : item.start = 0) :
    Sound score lexicon words f
      { s with results := s.results.push ⟨item.derivation, -item.cost⟩ } := by
  refine ⟨h.agenda, h.byStart, h.byStop, h.nodup, h.bounded, h.kept, fun r hr => ?_, h.cache⟩
  rw [Array.toList_push] at hr
  rcases List.mem_append.mp hr with hr | hr
  · exact h.results r hr
  · obtain rfl := List.mem_singleton.mp hr
    obtain ⟨i, u, d, -, rfl⟩ := hitem
    obtain rfl : i = 0 := hstart
    rfl

theorem fileByStart (h : Sound score lexicon words f s)
    (hitem : Placed score lexicon words f item) :
    Sound score lexicon words f { s with byStart := s.byStart.insert item.start item } := by
  refine ⟨h.agenda, fun k a ha => ?_, h.byStop, h.nodup, h.bounded, h.kept, h.results, h.cache⟩
  rw [Grouped.group_insert] at ha
  split at ha
  · next hk =>
    rcases List.mem_append.mp ha with ha | ha
    · exact h.byStart k a ha
    · obtain rfl := List.mem_singleton.mp ha
      exact ⟨hitem, eq_of_beq hk⟩
  · exact h.byStart k a ha

theorem fileByStop (h : Sound score lexicon words f s)
    (hitem : Placed score lexicon words f item) :
    Sound score lexicon words f { s with byStop := s.byStop.insert item.stop item } := by
  refine ⟨h.agenda, h.byStart, fun k a ha => ?_, h.nodup, h.bounded, h.kept, h.results, h.cache⟩
  rw [Grouped.group_insert] at ha
  split at ha
  · next hk =>
    rcases List.mem_append.mp ha with ha | ha
    · exact h.byStop k a ha
    · obtain rfl := List.mem_singleton.mp ha
      exact ⟨hitem, eq_of_beq hk⟩
  · exact h.byStop k a ha

theorem front (h : Sound score lexicon words f s) {p : Agenda (Item α) × Cache}
    (hp : FrontSound score lexicon words f p) :
    Sound score lexicon words f { s with agenda := p.1, cache := p.2 } :=
  ⟨hp.agenda, h.byStart, h.byStop, h.nodup, h.bounded, h.kept, h.results, hp.cache⟩

section

variable [LT α] [DecidableLT α]

theorem remove {rest : Agenda (Item α)} (h : Sound score lexicon words f s)
    (hout : s.agenda.remove? Item.before = some (item, rest)) :
    Placed score lexicon words f item ∧
      Sound score lexicon words f { s with agenda := rest, steps := s.steps + 1 } := by
  have hperm := Agenda.perm_remove Item.before hout
  have hagenda : ∀ a ∈ item :: rest.toList, Placed score lexicon words f a :=
    fun a ha => h.agenda a (hperm.mem_iff.mpr ha)
  exact ⟨hagenda item List.mem_cons_self, fun a ha => hagenda a (List.mem_cons_of_mem _ ha),
    h.byStart, h.byStop, h.nodup, h.bounded, h.kept, h.results, h.cache⟩

end

end Sound

/-! ## Steps and runs -/

section

variable [LT α] [DecidableLT α]

/-- The items above two neighbours come on the agenda one after the other. -/
theorem placed_of_mem_scanl {ds : List Derivation}
    (hds : ∀ d ∈ ds, Placed score lexicon words f (parentItem f left right d))
    {q q' : Agenda (Item α)} (hq : ∀ a ∈ q.toList, Placed score lexicon words f a)
    (hq' : q' ∈ ds.scanl (fun q d => q.insert Item.before (parentItem f left right d)) q) :
    ∀ a ∈ q'.toList, Placed score lexicon words f a := by
  induction ds generalizing q with
  | nil =>
    obtain rfl := List.mem_singleton.mp hq'
    exact hq
  | cons d ds ih =>
    rw [List.scanl_cons] at hq'
    rcases List.mem_cons.mp hq' with rfl | hq'
    · exact hq
    · refine ih (fun d hd => hds d (List.mem_cons_of_mem _ hd)) (fun a ha => ?_) hq'
      rcases List.mem_cons.mp ((Agenda.perm_insert Item.before q _).mem_iff.mp ha) with rfl | ha
      · exact hds d List.mem_cons_self
      · exact hq a ha

namespace FrontSound

theorem of_mem_pushMoments {p p' : Agenda (Item α) × Cache}
    (h : FrontSound score lexicon words f p) (hleft : Placed score lexicon words f left)
    (hright : Placed score lexicon words f right) (hnext : left.stop = right.start)
    (hp' : p' ∈ pushMoments f left right p) : FrontSound score lexicon words f p' := by
  obtain ⟨hparents, hvalid⟩ :=
    Derivation.gives_cachedParents left.derivation right.derivation p.2 h.cache
  obtain ⟨q, hq, rfl⟩ := List.mem_map.mp hp'
  refine ⟨placed_of_mem_scanl (fun d hd => ?_) h.agenda hq, hvalid⟩
  exact (hleft.parentItem hright hnext (hparents ▸ hd)).1

theorem of_mem_frontMoments {pairs : List (Item α × Item α)} {p p' : Agenda (Item α) × Cache}
    (h : FrontSound score lexicon words f p)
    (hpairs : ∀ lr ∈ pairs, Placed score lexicon words f lr.1 ∧
      Placed score lexicon words f lr.2 ∧ lr.1.stop = lr.2.start)
    (hp' : p' ∈ frontMoments f pairs p) : FrontSound score lexicon words f p' := by
  induction pairs generalizing p with
  | nil =>
    obtain rfl := List.mem_singleton.mp hp'
    exact h
  | cons lr pairs ih =>
    obtain ⟨hleft, hright, hnext⟩ := hpairs lr List.mem_cons_self
    rcases List.mem_append.mp hp' with hp' | hp'
    · exact h.of_mem_pushMoments hleft hright hnext hp'
    · have hpushed := h.of_mem_pushMoments hleft hright hnext (pushParents_mem_pushMoments f _ _ p)
      exact ih hpushed (fun lr hlr => hpairs lr (List.mem_cons_of_mem _ hlr)) hp'

end FrontSound

namespace Sound

theorem of_mem_expandMoments {s' : State α} (h : Sound score lexicon words f s)
    (hitem : Placed score lexicon words f item) (hs' : s' ∈ expandMoments f item s) :
    Sound score lexicon words f s' := by
  have hstart := h.fileByStart hitem
  have hfiled := hstart.fileByStop hitem
  rcases List.mem_cons.mp hs' with rfl | hs'
  · exact hstart
  rcases List.mem_cons.mp hs' with rfl | hs'
  · exact hfiled
  obtain ⟨p, hp, rfl⟩ := List.mem_map.mp hs'
  refine hfiled.front (FrontSound.of_mem_frontMoments ⟨h.agenda, h.cache⟩ ?_ hp)
  intro lr hlr
  rcases List.mem_append.mp hlr with hlr | hlr
  · obtain ⟨right, hright, rfl⟩ := List.mem_map.mp hlr
    obtain ⟨hplaced, hnext⟩ := hfiled.byStart _ right hright
    exact ⟨hitem, hplaced, hnext.symm⟩
  · obtain ⟨left, hleft, rfl⟩ := List.mem_map.mp hlr
    obtain ⟨hplaced, hnext⟩ := hfiled.byStop _ left hleft
    exact ⟨hplaced, hitem, hnext⟩

theorem of_mem_acceptMoments {s' : State α} (h : Sound score lexicon words f s)
    (hitem : Placed score lexicon words f item) (hpass : s.passesOver f item = false)
    (hs' : s' ∈ acceptMoments f item s) : Sound score lexicon words f s' := by
  have hkept := h.keep hitem hpass
  rcases List.mem_cons.mp hs' with rfl | hs'
  · exact hkept
  split at hs'
  · next hwhole =>
    split at hs'
    · obtain rfl := List.mem_singleton.mp hs'
      exact hkept.result hitem hwhole.1
    · cases hs'
  · exact hkept.of_mem_expandMoments hitem hs'

/-- Every change inside of a step keeps a state sound. -/
theorem of_mem_moments {s' : State α} (h : Sound score lexicon words f s)
    (hs' : s' ∈ moments f s) : Sound score lexicon words f s' := by
  unfold moments at hs'
  cases hout : s.agenda.remove? Item.before with
  | none =>
    rw [hout] at hs'
    cases hs'
  | some out =>
    obtain ⟨item, rest⟩ := out
    obtain ⟨hitem, hrest⟩ := h.remove hout
    rw [hout] at hs'
    rcases List.mem_cons.mp hs' with rfl | hs'
    · exact hrest
    split at hs'
    · cases hs'
    · next hpass => exact hrest.of_mem_acceptMoments hitem (by simpa using hpass) hs'

theorem step (h : Sound score lexicon words f s) :
    Sound score lexicon words f (Search.step f s) := by
  rcases step_mem_moments f s with heq | hmem
  · rwa [heq]
  · exact h.of_mem_moments hmem

theorem run (h : Sound score lexicon words f s) (n : Nat) :
    Sound score lexicon words f (Search.run f n s).1 := by
  induction n generalizing s with
  | zero => exact h
  | succ n ih =>
    rw [Search.run]
    split
    · exact h
    · exact ih h.step

theorem of_passes {origin : State α} (h : Sound score lexicon words f origin)
    (hs : Passes f origin s) : Sound score lexicon words f s := by
  cases hs with
  | between n => exact h.run n
  | inside n _ hs => exact (h.run n).of_mem_moments hs

end Sound

theorem sound_start (score : Nat → Derivation → Option α) (lexicon : LexicalEntries)
    (words : List String) (f : Frame α) :
    Sound score lexicon words f (start f (sentenceLeaves score lexicon 0 words)) := by
  refine ⟨fun a ha => ?_, ?_, ?_, ?_, ?_, ?_, nofun, Cache.valid_empty⟩
  · exact .leaf ((mem_agenda_start_iff f _).mp ha)
  all_goals simp [start, Grouped.group_empty]

end

end Search

open Search Categorial.Derivation

/-! ## Every moment -/

variable {ε α : Type} [Add α] [Sub α] [Neg α] [Mul α] [OfNat α 0] [OfNat α 1]

/-- The derivation of an item is licensed for the words of its span, and the cost of the item is
that of the derivation at its place. -/
structure Item.Accurate (cost : Nat → Derivation → α) (lexicon : LexicalEntries)
    (words : List String) (a : Item α) : Prop where
  stop_le : a.stop ≤ words.length
  licensed : Licensed lexicon (Chart.slice words (a.start, a.stop)) a.derivation
  cost_eq : a.cost = cost a.start a.derivation

theorem Search.Placed.accurate {score : Nat → Derivation → Option α} {lexicon : LexicalEntries}
    {words : List String} {f : Frame α} {a : Item α} (h : Placed score lexicon words f a) :
    a.Accurate (cost score f.request.penalty) lexicon words := by
  obtain ⟨i, u, d, hfits, rfl⟩ := h
  refine ⟨hfits.stop_le.2, ?_, rfl⟩
  rw [start_itemAt, stop_itemAt, hfits.slice_eq]
  exact hfits.licensed

/-- What a derivation costs at a place, as it is summed up: a leaf its score, negated, and a step
what its parts cost, the right one where the left one ends, and the penalty once or not at all. -/
structure IsCost (scorer : Scorer ε α) (penalty : α) (cost : Nat → Derivation → α) : Prop where
  leaf : ∀ k w c s, scorer k w c = .ok (some s) → cost k (.leaf c (some w)) = -s
  node : ∀ k r left right, left.isRaised = false → (∀ x y, left ≠ .raisedLeaf x y) →
    cost k (.node r left right) =
      cost k left + cost (k + left.leaves.length) right + penalty * 0
  raised : ∀ k x y left right, cost k (.node .forwardCompose (.raised x y left) right) =
    cost k left + cost (k + left.leaves.length) right + penalty * 1

omit [Sub α] in
theorem isCost_cost (scorer : Scorer ε α) (penalty : α) :
    IsCost scorer penalty (cost scorer.leafScore penalty) := by
  refine ⟨fun k w c s hs => ?_, fun k r left right hraised hleaf => ?_,
    fun k x y left right => rfl⟩
  · simp only [cost, Scorer.leafScore, hs, Option.getD_some]
  · have hnone : raisings (.node r left right) = 0 := by
      cases left with
      | leaf | node => rfl
      | raisedLeaf x y => exact absurd rfl (hleaf x y)
      | raised => cases hraised
    rw [cost, hnone]
    rfl

/-- **At every moment of a search its items are right.** Whatever the numbers are, every item on the
agenda or filed by its start or its stop has a derivation that is licensed for the words of its span
and the cost of this derivation; and for every span and category there are kept no more derivations
than asked for, each once, of this category and licensed for these words. This holds between any two
steps and after every change inside of a step. A derivation is therefore reported with its cost,
negated, whatever else is requested. -/
theorem search_sound_at_every_moment [LT α] [DecidableLT α] (scorer : Scorer ε α)
    (lexicon : LexicalEntries) (words : List String) (penalty : α) :
    ∃ cost : Nat → Derivation → α, IsCost scorer penalty cost ∧
      (∀ (request : Request α) (leaves : List (List (Derivation × α))),
        request.penalty = penalty → leavesFrom scorer lexicon 0 words = .ok (.inr leaves) →
        ∀ s, Passes (frame request leaves) (start (frame request leaves) leaves) s →
          (∀ a ∈ s.agenda.toList, a.Accurate cost lexicon words) ∧
          (∀ k, ∀ a ∈ s.byStart.group k, a.Accurate cost lexicon words ∧ a.start = k) ∧
          (∀ k, ∀ a ∈ s.byStop.group k, a.Accurate cost lexicon words ∧ a.stop = k) ∧
          ∀ span c, (s.kept.group (span, c)).length ≤ request.count.toNat ∧
            (s.kept.group (span, c)).Nodup ∧ ∀ d ∈ s.kept.group (span, c),
              d.category = c ∧ Licensed lexicon (Chart.slice words span) d) ∧
      ∀ (request : Request α) (o : Outcome α), request.penalty = penalty →
        search scorer lexicon request words = .ok o →
          ∀ r ∈ o.results, r.score = -cost 0 r.derivation := by
  refine ⟨cost scorer.leafScore penalty, isCost_cost scorer penalty, ?_, ?_⟩
  · rintro request leaves rfl hleaves s hs
    obtain rfl := eq_sentenceLeaves_of_leavesFrom hleaves
    have h := (sound_start scorer.leafScore lexicon words _).of_passes hs
    refine ⟨fun a ha => (h.agenda a ha).accurate, fun k a ha => ?_, fun k a ha => ?_,
      fun span c => ⟨h.bounded _, h.nodup _, fun d hd => ?_⟩⟩
    · obtain ⟨hplaced, hk⟩ := h.byStart k a ha
      exact ⟨hplaced.accurate, hk⟩
    · obtain ⟨hplaced, hk⟩ := h.byStop k a ha
      exact ⟨hplaced.accurate, hk⟩
    · obtain ⟨a, hplaced, hslot, rfl⟩ := h.kept _ d hd
      cases hslot
      exact ⟨rfl, hplaced.accurate.licensed⟩
  · rintro request o rfl ho r hr
    unfold search at ho
    split at ho
    · cases ho
      cases hr
    split at ho
    · cases ho
    split at ho
    · cases ho
    · cases ho
      cases hr
    · next leaves hleaves =>
      cases ho
      obtain rfl := eq_sentenceLeaves_of_leavesFrom hleaves
      exact ((sound_start scorer.leafScore lexicon words _).run _).results r hr

/-- A noun phrase that has to be raised to be joined to the verb, with a penalty for it. At the
start it is on the agenda with its own cost, and in the end the only result has the cost of both
words and of raising. -/
theorem search_sound_raisedSubject :
    let scorer : Scorer Unit Int := fun _ _ c => .ok (some (if c = .np then -1 else -2))
    let request : Request Int := ⟨2, 100, 5, none⟩
    ∃ leaves, leavesFrom scorer (verbAndNounPhrases "saw") 0 ["they", "saw"] = .ok (.inr leaves) ∧
      (∃ cost : Nat → Derivation → Int,
        (∃ a ∈ (start (frame request leaves) leaves).agenda.toList,
          a.derivation = .leaf .np (some "they") ∧ a.cost = 1 ∧
            a.Accurate cost (verbAndNounPhrases "saw") ["they", "saw"]) ∧
        cost 0 (raisedSubject "they" "saw") = 8 ∧
        ∀ n, ∀ a ∈
            (run (frame request leaves) n (start (frame request leaves) leaves)).1.agenda.toList,
          a.Accurate cost (verbAndNounPhrases "saw") ["they", "saw"]) ∧
      ∃ o, search scorer (verbAndNounPhrases "saw") request ["they", "saw"] = .ok o ∧
        o.results = [⟨raisedSubject "they" "saw", -8⟩] := by
  intro scorer request
  obtain ⟨cost, hcost, hmoments, hscores⟩ :=
    search_sound_at_every_moment scorer (verbAndNounPhrases "saw") ["they", "saw"] 5
  have hraised : cost 0 (raisedSubject "they" "saw") = 8 := by
    rw [raisedSubject, hcost.raised, hcost.leaf 0 "they" _ (-1) rfl]
    rw [hcost.leaf _ "saw" _ (-2) rfl]
    rfl
  have hpenalty : ¬ request.penalty < 0 := by decide
  have hanswers : Answers scorer (verbAndNounPhrases "saw") 0 ["they", "saw"] :=
    fun _ _ _ _ => ⟨_, rfl⟩
  obtain ⟨o, hsearch, hcut, hresults⟩ := exists_results_eligible hpenalty hanswers
  have hending : o.ending ≠ .gaveUp := by
    refine hcut.ending_ne ?_
    have hleaves : leafCount scorer (verbAndNounPhrases "saw") ["they", "saw"] = 2 := by decide
    rw [hleaves, partCount_raisedSubject (by decide)]
    decide
  have heligible : eligible scorer (verbAndNounPhrases "saw") request ["they", "saw"] =
      [raisedSubject "they" "saw"] := by
    rw [eligible, parse_raisedSubject (by decide)]
    decide
  obtain ⟨-, hmem, hlength⟩ := hresults hending
  rw [heligible] at hmem hlength
  obtain ⟨r, hr⟩ := List.length_eq_one_iff.mp hlength
  let leaves : List (List (Derivation × Int)) :=
    [[(.leaf .np (some "they"), -1)], [(.leaf (.forward (.backward .s .np) .np) (some "saw"), -2)]]
  refine ⟨leaves, rfl, ⟨cost, ?_, hraised, fun n => ?_⟩, o, hsearch, ?_⟩
  · have ha := (mem_agenda_start_iff (frame request leaves) leaves).mpr List.mem_cons_self
    exact ⟨_, ha, rfl, rfl, (hmoments request leaves rfl rfl _ (.between 0)).1 _ ha⟩
  · exact (hmoments request leaves rfl rfl _ (.between n)).1
  · have hderivation : r.derivation = raisedSubject "they" "saw" :=
      List.mem_singleton.mp (hmem _ (by rw [hr]; exact List.mem_cons_self))
    have hscore := hscores request o rfl hsearch r (by rw [hr]; exact List.mem_cons_self)
    rw [hderivation, hraised] at hscore
    rw [hr, ← hderivation, ← hscore]

end Categorial

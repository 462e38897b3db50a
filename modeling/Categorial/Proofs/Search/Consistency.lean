import Categorial.Proofs.Search.Moments
import Categorial.Proofs.Search.Optimality
import Categorial.Proofs.Search.Steps

/-!
# The estimate is consistent

With exact numbers the estimate of a search never goes down from a derivation to one that contains
it. So an item comes on the agenda behind the two that it is made of, the items come from the agenda
in the order of their priorities, and no priority exceeds the cost of a derivation of the sentence
that has the item as a part. Whether the part is raised makes no difference, for a raised category
is no item of its own.

* `outsideOf_outsideSums`: the sums of the scores outside of a span.
* `Search.removals`: the items that a run takes from the agenda, in order.
* `Search.Ascending.step`, `Search.Ascending.run`: they come in ascending order.
* `Search.Estimates.priority_le_of_mem_spannedParts`: the priorities of the parts of a derivation.
* `estimate_consistent`: all of this for the searches of a sentence.
-/

namespace Categorial

open Categorial.Derivation

/-! ## The scores outside of a span -/

theorem getElem?_prefixSums (bs : List ℚ) {k : Nat} (hk : k ≤ bs.length) :
    (prefixSums bs)[k]? = some (bs.take k).sum := by
  induction k with
  | zero =>
    rw [Search.prefixSums_eq]
    rfl
  | succ k ih =>
    have hbs : bs[k]? = some bs[k] := List.getElem?_eq_getElem hk
    have hfirst := ih (Nat.le_of_succ_le hk)
    rw [Search.prefixSums_eq] at hfirst ⊢
    obtain ⟨s, hs, hnext⟩ := Search.getElem?_cons_runningSums 0 hbs
    obtain rfl : s = (bs.take k).sum := Option.some.inj (hs.symm.trans hfirst)
    rw [List.getElem?_cons_succ, hnext, List.sum_take_succ]

/-- What the search takes for the best score outside of a span is the sum of the scores in front of
it and of those behind it. -/
theorem outsideOf_outsideSums (bs : List ℚ) {i j : Nat} (hij : i ≤ j) (hj : j ≤ bs.length) :
    outsideOf (outsideSums bs) i j = (bs.take i ++ bs.drop j).sum := by
  have hget : ∀ k ≤ bs.length, (outsideSums bs).getD k 0 = (bs.take k).sum := by
    intro k hk
    rw [outsideSums, Array.getD_eq_getD_getElem?, List.getElem?_toArray, getElem?_prefixSums bs hk]
    rfl
  have hsize : (outsideSums bs).size - 1 = bs.length := by
    rw [outsideSums, List.size_toArray, length_prefixSums, Nat.add_sub_cancel]
  have hsplit : (bs.take j).sum + (bs.drop j).sum = bs.sum := List.sum_take_add_sum_drop bs j
  rw [outsideOf, hsize, hget _ (Nat.le_refl _), hget j hj, hget i (hij.trans hj), List.take_length,
    List.sum_append, ← hsplit]
  ring

theorem getElem?_outsideScores (bs : List ℚ) {i j : Nat} (hi : i ≤ bs.length)
    (hj : j ≤ bs.length) :
    ∃ row, (outsideScores bs)[i]? = some row ∧ row[j]? = some (outsideOf (outsideSums bs) i j) := by
  have hrange : ∀ k ≤ bs.length, (List.range (outsideSums bs).size)[k]? = some k := by
    intro k hk
    rw [outsideSums, List.size_toArray, length_prefixSums]
    exact List.getElem?_range (Nat.lt_succ_of_le hk)
  refine ⟨(List.range (outsideSums bs).size).map fun j => outsideOf (outsideSums bs) i j, ?_, ?_⟩
  · rw [outsideScores, List.getElem?_map, hrange i hi]
    rfl
  · rw [List.getElem?_map, hrange j hj]
    rfl

/-! ## The parts of a derivation in their places -/

/-- The derivation itself and the derivations inside it, each with its span, where the first word is
at place `i`. -/
def Derivation.spannedParts (i : Nat) : Derivation → List (Span × Derivation)
  | leaf c w => [((i, i + 1), leaf c w)]
  | raisedLeaf x y => [((i, i + 1), raisedLeaf x y)]
  | raised x y child => ((i, i + child.leaves.length), raised x y child) :: child.spannedParts i
  | node r left right =>
    ((i, i + left.leaves.length + right.leaves.length), node r left right) ::
      (left.spannedParts i ++ right.spannedParts (i + left.leaves.length))

/-- A part of a join that is not raised is the join itself or a part of one of the two. -/
theorem Derivation.mem_spannedParts_above {g : Join} {x y : Category} {left right : Derivation}
    {i : Nat} {p : Span × Derivation} (hp : p ∈ (g.above x y left right).spannedParts i)
    (hraised : p.2.isRaised = false) :
    p = ((i, i + left.leaves.length + right.leaves.length), g.above x y left right) ∨
      p ∈ left.spannedParts i ∨ p ∈ right.spannedParts (i + left.leaves.length) := by
  rcases g with r | -
  · rcases List.mem_cons.mp hp with rfl | hp
    · exact .inl rfl
    · exact .inr (List.mem_append.mp hp)
  · rcases List.mem_cons.mp hp with rfl | hp
    · exact .inl rfl
    rcases List.mem_append.mp hp with hp | hp
    · rcases List.mem_cons.mp hp with rfl | hp
      · cases hraised
      · exact .inr (.inl hp)
    · exact .inr (.inr hp)

namespace Search

/-! ## What a run takes from the agenda -/

/-- The items that a run takes from the agenda, in order. -/
def removals {α : Type} [Add α] [Sub α] [Neg α] [Mul α] [OfNat α 0] [OfNat α 1] [LT α]
    [DecidableLT α] (f : Frame α) : Nat → State α → List (Item α)
  | 0, _ => []
  | n + 1, s =>
    if s.isFinished f then []
    else ((s.agenda.remove? Item.before).map (·.1)).toList ++ removals f n (step f s)

/-- One item is taken in each step. -/
theorem steps_run {α : Type} [Add α] [Sub α] [Neg α] [Mul α] [OfNat α 0] [OfNat α 1] [LT α]
    [DecidableLT α] (f : Frame α) (n : Nat) (s : State α) :
    (run f n s).1.steps = s.steps + (removals f n s).length := by
  induction n generalizing s with
  | zero => rfl
  | succ n ih =>
    by_cases hfinished : s.isFinished f = true
    · rw [run, removals, if_pos hfinished, if_pos hfinished]
      rfl
    · obtain ⟨item, rest, hout⟩ := exists_remove?_of_not_isFinished hfinished
      rw [run, removals, if_neg hfinished, if_neg hfinished, ih, steps_step hout, hout,
        Option.map_some, Option.toList_some, List.singleton_append, List.length_cons]
      omega

variable {score : Nat → Derivation → Option ℚ} {lexicon : LexicalEntries} {words : List String}
  {f : Frame ℚ} {item : Item ℚ} {s : State ℚ} {removed : List (Item ℚ)}

/-- The items removed so far, those passed over among them, came in ascending order, and none that
can still come is before one of them. -/
structure Ascending (score : Nat → Derivation → Option ℚ) (lexicon : LexicalEntries)
    (words : List String) (f : Frame ℚ) (removed : List (Item ℚ)) (s : State ℚ) : Prop where
  sound : Sound score lexicon words f s
  recorded : ∃ taken, Records f taken s ∧ ∀ a ∈ taken, Placed score lexicon words f a
  ordered : Ordered removed s.agenda

namespace Ascending

theorem start (score : Nat → Derivation → Option ℚ) (lexicon : LexicalEntries)
    (words : List String) (f : Frame ℚ) :
    Ascending score lexicon words f []
      (Search.start f (sentenceLeaves score lexicon 0 words)) :=
  ⟨sound_start score lexicon words f, ⟨[], records_start f _, nofun⟩, .start _⟩

theorem step (hestimates : Estimates score lexicon words f) (hpenalty : 0 ≤ f.request.penalty)
    (h : Ascending score lexicon words f removed s) {rest : Agenda (Item ℚ)}
    (hout : s.agenda.remove? Item.before = some (item, rest)) :
    Ascending score lexicon words f (removed ++ [item]) (Search.step f s) := by
  obtain ⟨taken, hrecords, hplaced⟩ := h.recorded
  have hitem := (h.sound.remove hout).1
  rcases records_step hrecords hout with ⟨-, hrecords', hagenda⟩ | ⟨-, hrecords', hagenda⟩
  · -- an item that is passed over brings nothing on the agenda
    refine ⟨h.sound.step, ⟨taken, hrecords', hplaced⟩, ?_⟩
    rw [hagenda]
    have hnone : ∀ a ∈ ([] : List (Item ℚ)), item.priority ≤ a.priority := nofun
    exact h.ordered.take hout hnone
  · have hplaced' : ∀ a ∈ taken ++ [item], Placed score lexicon words f a := by
      intro a ha
      rcases List.mem_append.mp ha with ha | ha
      · exact hplaced a ha
      · rwa [List.mem_singleton.mp ha]
    refine ⟨h.sound.step, ⟨_, hrecords', hplaced'⟩, ?_⟩
    rw [hagenda]
    refine h.ordered.take hout fun a ha => ?_
    exact priority_le_of_mem_joins hestimates hpenalty hplaced'
      (List.mem_append_right _ List.mem_cons_self) ha

theorem run (hestimates : Estimates score lexicon words f) (hpenalty : 0 ≤ f.request.penalty)
    (h : Ascending score lexicon words f removed s) (n : Nat) :
    Ascending score lexicon words f (removed ++ removals f n s) (Search.run f n s).1 := by
  induction n generalizing removed s with
  | zero =>
    rw [removals, List.append_nil]
    exact h
  | succ n ih =>
    rw [Search.run, removals]
    by_cases hfinished : s.isFinished f = true
    · rw [if_pos hfinished, if_pos hfinished, List.append_nil]
      exact h
    · obtain ⟨item, rest, hout⟩ := exists_remove?_of_not_isFinished hfinished
      rw [if_neg hfinished, if_neg hfinished, hout, Option.map_some, Option.toList_some,
        ← List.append_assoc]
      exact ih (h.step hestimates hpenalty hout)

end Ascending

/-! ## Parts and wholes -/

/-- The priority of a derivation is at least that of each of its parts. -/
theorem Estimates.priority_le_of_mem_spannedParts (h : Estimates score lexicon words f)
    (hpenalty : 0 ≤ f.request.penalty) {i : Nat} {u : List String} {d : Derivation}
    (hfits : Fits score lexicon words i u d) {p : Span × Derivation}
    (hp : p ∈ d.spannedParts i) (hraised : p.2.isRaised = false) :
    (itemAt score f p.1.1 p.1.2 p.2).priority ≤ (itemAt score f i (i + u.length) d).priority := by
  revert hp
  refine hfits.induction (motive := fun i u d => p ∈ d.spannedParts i →
    (itemAt score f p.1.1 p.1.2 p.2).priority ≤ (itemAt score f i (i + u.length) d).priority) ?_ ?_
  · intro i w c _ _ _ hp
    rw [List.mem_singleton.mp hp]
    exact le_refl _
  · intro i u v left right d hleft hright hd ihl ihr hp
    obtain ⟨hlel, hler⟩ := h.priority_le_of_mem_parents hpenalty hleft hright hd
    rw [List.length_append, ← Nat.add_assoc]
    obtain ⟨x, y, -, -, g, -, rfl⟩ := mem_parents_iff.mp hd
    have hparts := mem_spannedParts_above hp hraised
    rw [length_leaves hleft.licensed, length_leaves hright.licensed] at hparts
    rcases hparts with rfl | hp | hp
    · exact le_refl _
    · exact (ihl hp).trans hlel
    · exact (ihr hp).trans hler

/-- An item has at most the cost of a derivation of the sentence that it is a part of as its
priority. -/
theorem Placed.priority_le_neg_total {ε : Type} {scorer : Scorer ε ℚ} {a : Item ℚ}
    (ha : Placed scorer.leafScore lexicon words f a)
    (hestimates : Estimates scorer.leafScore lexicon words f) (hpenalty : 0 ≤ f.request.penalty)
    {d : Derivation} (hd : Licensed lexicon words d)
    (havailable : available scorer.leafScore 0 d = true)
    (hpart : ((a.start, a.stop), a.derivation) ∈ d.spannedParts 0) :
    a.priority ≤ -scorer.total f.request.penalty d := by
  have hfits : Fits scorer.leafScore lexicon words 0 words d := fits_words_iff.mpr ⟨hd, havailable⟩
  have hle := hestimates.priority_le_of_mem_spannedParts hpenalty hfits hpart ha.isRaised_eq_false
  rw [Nat.zero_add, hestimates.priority_words] at hle
  rw [← neg_cost_eq_total hd, neg_neg]
  obtain ⟨i, u, e, -, rfl⟩ := ha
  exact hle

end Search

open Search

/-- **The estimate is consistent.** With exact numbers, the matrix of outside scores holds for each
span the sum of the best scores of the words outside of it. With a penalty that is not negative, at
every moment of a search for a sentence: what comes on the agenda above two neighbours among the
items filed has at least the priority of each of them; the items taken from the agenda, one in each
step, came in the order of their priorities; and an item on the agenda or filed has at most the cost
of any derivation of the sentence from available leaves as its priority, if its own derivation is,
raised or not, the part of that derivation at its span. -/
theorem estimate_consistent {ε : Type} (scorer : Scorer ε ℚ) (lexicon : LexicalEntries)
    (request : Request ℚ) (words : List String) (leaves : List (List (Derivation × ℚ)))
    (hpenalty : 0 ≤ request.penalty)
    (hleaves : leavesFrom scorer lexicon 0 words = .ok (.inr leaves)) :
    let f := frame request leaves
    let origin := start f leaves
    (∀ (bs : List ℚ) (i j : Nat), i ≤ j → j ≤ bs.length →
      ∃ row, (outsideScores bs)[i]? = some row ∧ row[j]? = some (bs.take i ++ bs.drop j).sum) ∧
    (∀ s, Passes f origin s → ∀ k, ∀ left ∈ s.byStop.group k, ∀ right ∈ s.byStart.group k,
      ∃ pushed : List (Item ℚ),
        (pushParents f left right (s.agenda, s.cache)).1.toList.Perm
          (pushed ++ s.agenda.toList) ∧
        ∀ a ∈ pushed, left.priority ≤ a.priority ∧ right.priority ≤ a.priority) ∧
    (∀ n, (removals f n origin).length = (run f n origin).1.steps ∧
      (removals f n origin).Pairwise fun a b => a.priority ≤ b.priority) ∧
    ∀ s, Passes f origin s → ∀ a : Item ℚ,
      (a ∈ s.agenda.toList ∨ (∃ k, a ∈ s.byStart.group k) ∨ ∃ k, a ∈ s.byStop.group k) →
      ∀ d, Licensed lexicon words d → available scorer.leafScore 0 d = true →
        ((a.start, a.stop), a.derivation) ∈ d.spannedParts 0 →
          a.priority ≤ -scorer.total request.penalty d := by
  intro f origin
  obtain rfl := eq_sentenceLeaves_of_leavesFrom hleaves
  have hestimates : Estimates scorer.leafScore lexicon words f :=
    estimates_sentenceFrame scorer.leafScore lexicon words request
  have hsound : ∀ s, Passes f origin s → Sound scorer.leafScore lexicon words f s :=
    fun s hs => (sound_start scorer.leafScore lexicon words f).of_passes hs
  refine ⟨fun bs i j hij hj => ?_, fun s hs k left hleft right hright => ?_, fun n => ⟨?_, ?_⟩,
    fun s hs a ha d hd havailable hpart => ?_⟩
  · rw [← outsideOf_outsideSums bs hij hj]
    exact getElem?_outsideScores bs (hij.trans hj) hj
  · obtain ⟨hplacedl, hstop⟩ := (hsound s hs).byStop k left hleft
    obtain ⟨hplacedr, hstart⟩ := (hsound s hs).byStart k right hright
    refine ⟨parentItems f left right, ?_, fun a ha => ?_⟩
    · rw [(pushParents_spec f left right s.agenda (hsound s hs).cache).1]
      exact Agenda.perm_foldl_insert _ _ _
    · exact priority_le_of_mem_parentItems hestimates hpenalty hplacedl hplacedr
        (hstop.trans hstart.symm) ha
  · rw [steps_run]
    exact (Nat.zero_add _).symm
  · have hrun := (Ascending.start scorer.leafScore lexicon words f).run hestimates hpenalty n
    exact hrun.ordered.sorted
  · have hplaced : Placed scorer.leafScore lexicon words f a := by
      rcases ha with ha | ⟨k, ha⟩ | ⟨k, ha⟩
      · exact (hsound s hs).agenda a ha
      · exact ((hsound s hs).byStart k a ha).1
      · exact ((hsound s hs).byStop k a ha).1
    exact hplaced.priority_le_neg_total hestimates hpenalty hd havailable hpart

/-- A noun phrase in front of a verb, and the derivation in which it is raised. At the start the
noun phrase is on the agenda; its priority, its cost with the best score of the verb, is less than
the cost of the derivation. -/
theorem estimate_consistent_raisedSubject :
    let scorer : Scorer Unit ℚ := fun _ _ c => .ok (some (if c = .np then -1 else -2))
    let request : Request ℚ := ⟨2, 100, 5, none⟩
    0 ≤ request.penalty ∧ ∃ leaves,
      leavesFrom scorer (verbAndNounPhrases "saw") 0 ["they", "saw"] = .ok (.inr leaves) ∧
      let f := frame request leaves
      (∃ row, (outsideScores [(-1 : ℚ), -2])[0]? = some row ∧ row[1]? = some (-2 : ℚ)) ∧
      (∀ n, (removals f n (start f leaves)).Pairwise fun a b => a.priority ≤ b.priority) ∧
      (∃ a ∈ (start f leaves).agenda.toList, a.derivation = .leaf .np (some "they") ∧
        a.cost = 1 ∧ a.priority = 3 ∧ a.priority ≤ 8 ∧
        -scorer.total request.penalty (raisedSubject "they" "saw") = 8) ∧
      ∀ n, ∀ a ∈ (run f n (start f leaves)).1.agenda.toList,
        a.start = 0 → a.stop = 1 → a.derivation = .leaf .np (some "they") → a.priority ≤ 8 := by
  intro scorer request
  have hpenalty : 0 ≤ request.penalty := by norm_num [request]
  let leaves : List (List (Derivation × ℚ)) :=
    [[(.leaf .np (some "they"), -1)], [(.leaf (.forward (.backward .s .np) .np) (some "saw"), -2)]]
  refine ⟨hpenalty, leaves, rfl, ?_⟩
  intro f
  obtain ⟨hmatrix, -, hremovals, hparts⟩ := estimate_consistent scorer (verbAndNounPhrases "saw")
    request ["they", "saw"] leaves hpenalty rfl
  have hlicensed : Licensed (verbAndNounPhrases "saw") ["they", "saw"]
      (raisedSubject "they" "saw") :=
    .raised (.leaf (by decide)) (.leaf (by decide)) rfl rfl rfl rfl
  have htotal : -scorer.total request.penalty (raisedSubject "they" "saw") = 8 := by
    have hverb : Category.forward (.backward .s .np) .np ≠ .np := by decide
    rw [← neg_cost_eq_total hlicensed, neg_neg]
    norm_num [raisedSubject, cost, Scorer.leafScore, raisings, factor, scorer, request, hverb]
  have hle : ∀ n, ∀ a ∈ (run f n (start f leaves)).1.agenda.toList,
      a.start = 0 → a.stop = 1 → a.derivation = .leaf .np (some "they") → a.priority ≤ 8 := by
    intro n a ha hstart hstop hleaf
    have hle := hparts _ (.between n) a (.inl ha) _ hlicensed (by decide)
      (by rw [hstart, hstop, hleaf]; decide)
    rwa [htotal] at hle
  refine ⟨?_, fun n => (hremovals n).2, ?_, hle⟩
  · obtain ⟨row, hrow, hentry⟩ := hmatrix [-1, -2] 0 1 (by decide) (by decide)
    exact ⟨row, hrow, by simpa using hentry⟩
  · have ha := (mem_agenda_start_iff f leaves).mpr List.mem_cons_self
    have houtside : f.outside 0 1 = 2 := by
      show -outsideOf (outsideSums [(-1 : ℚ), -2]) 0 1 = 2
      rw [outsideOf_outsideSums [-1, -2] (by decide) (by decide)]
      norm_num
    refine ⟨_, ha, rfl, neg_neg 1, ?_, hle 0 _ ha rfl rfl rfl, htotal⟩
    show -(-1 : ℚ) + f.outside 0 1 = 3
    rw [houtside]
    norm_num

end Categorial

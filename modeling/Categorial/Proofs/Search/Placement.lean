import Categorial.Proofs.Chart.Filling
import Categorial.Search.BestFirst

/-!
# Derivations in their places

A derivation fits at a place of a sentence if it is licensed for the words that follow there and
each of its leaves is available at its position. Everything that a search knows of such a derivation
is determined by it and its place: the cost, which is worked out along the derivation, and the
priority. An item is therefore `Search.itemAt` of the two.

* `Search.Fits.join`: what is above two derivations that fit side by side fits.
* `Search.Placed.parentItem`: the item above two others.
* `Search.mem_leafItems_iff`: the items that a search starts with.
* `Search.leavesFrom_spec`: the scored leaves of a sentence, or that some word has none.
-/

namespace Categorial

/-- The score of a leaf at a position, if its category is available there. -/
def Scorer.leafScore {ε α : Type} (scorer : Scorer ε α) (position : Nat) : Derivation → Option α
  | .leaf c (some w) =>
    match scorer position w c with
    | .ok s => s
    | .error _ => none
  | _ => none

namespace Search

open Categorial.Derivation

variable {α : Type}

/-- Whether all leaves of a derivation that starts at a place have a score. -/
def available (score : Nat → Derivation → Option α) (i : Nat) (d : Derivation) : Bool :=
  (d.leaves.zipIdx i).all fun p => (score p.2 p.1).isSome

/-- The derivation is licensed for the words from a place on, with available leaves. -/
structure Fits (score : Nat → Derivation → Option α) (lexicon : LexicalEntries)
    (words : List String) (i : Nat) (u : List String) (d : Derivation) : Prop where
  before : u <+: words.drop i
  licensed : Licensed lexicon u d
  isAvailable : available score i d = true

variable {score : Nat → Derivation → Option α} {lexicon : LexicalEntries} {words : List String}

/-! ## Fitting -/

theorem length_leaves {u : List String} {d : Derivation} (h : Licensed lexicon u d) :
    d.leaves.length = u.length := by
  have hwords := congrArg List.length h.words_eq
  simpa only [Derivation.words, List.length_map] using hwords

theorem available_of_mem_parents {i : Nat} {left right p : Derivation}
    (h : p ∈ parents left right) :
    available score i p =
      (available score i left && available score (i + left.leaves.length) right) := by
  rw [available, leaves_of_mem_parents h, List.zipIdx_append, List.all_append]
  rfl

theorem before_append_iff {i : Nat} {u v : List String} :
    u ++ v <+: words.drop i ↔ u <+: words.drop i ∧ v <+: words.drop (i + u.length) := by
  constructor
  · rintro ⟨rest, hrest⟩
    refine ⟨⟨v ++ rest, by rw [← List.append_assoc, hrest]⟩, ⟨rest, ?_⟩⟩
    rw [← List.drop_drop, ← hrest, List.append_assoc, List.drop_left]
  · rintro ⟨⟨rest, hrest⟩, hv⟩
    rw [← List.drop_drop, ← hrest, List.drop_left] at hv
    rw [← hrest]
    exact (List.prefix_append_right_inj u).mpr hv

theorem Fits.join {i : Nat} {u v : List String} {left right p : Derivation}
    (hleft : Fits score lexicon words i u left)
    (hright : Fits score lexicon words (i + u.length) v right) (hp : p ∈ parents left right) :
    Fits score lexicon words i (u ++ v) p := by
  refine ⟨before_append_iff.mpr ⟨hleft.before, hright.before⟩,
    hleft.licensed.of_mem_parents hright.licensed hp, ?_⟩
  rw [available_of_mem_parents hp, length_leaves hleft.licensed, hleft.isAvailable,
    hright.isAvailable]
  rfl

/-- A property of all derivations that fit, from the leaves up. -/
theorem Fits.induction {motive : Nat → List String → Derivation → Prop}
    (leaf : ∀ {i w c}, words[i]? = some w → c ∈ lexicon w →
      (score i (.leaf c (some w))).isSome → motive i [w] (.leaf c (some w)))
    (parent : ∀ {i u v left right p}, Fits score lexicon words i u left →
      Fits score lexicon words (i + u.length) v right → p ∈ parents left right →
      motive i u left → motive (i + u.length) v right → motive i (u ++ v) p)
    {i : Nat} {u : List String} {d : Derivation} (h : Fits score lexicon words i u d) :
    motive i u d := by
  obtain ⟨hbefore, hlicensed, havailable⟩ := h
  induction hlicensed using Licensed.induction generalizing i with
  | leaf hc =>
    obtain ⟨rest, hrest⟩ := hbefore
    refine leaf ?_ hc (by simpa [available, leaves] using havailable)
    have hhead := congrArg (fun l => l[0]?) hrest
    simpa using hhead.symm
  | parent hleft hright hp ihl ihr =>
    obtain ⟨hu, hv⟩ := before_append_iff.mp hbefore
    rw [available_of_mem_parents hp, length_leaves hleft, Bool.and_eq_true] at havailable
    exact parent ⟨hu, hleft, havailable.1⟩ ⟨hv, hright, havailable.2⟩ hp
      (ihl hu havailable.1) (ihr hv havailable.2)

theorem Fits.leaf {i : Nat} {w : String} {c : Category} (hw : words[i]? = some w)
    (hc : c ∈ lexicon w) (hscore : (score i (.leaf c (some w))).isSome) :
    Fits score lexicon words i [w] (.leaf c (some w)) := by
  obtain ⟨hi, hget⟩ := List.getElem?_eq_some_iff.mp hw
  refine ⟨⟨words.drop (i + 1), ?_⟩, .leaf hc, by simpa [available, leaves] using hscore⟩
  rw [List.drop_eq_getElem_cons hi, hget, List.singleton_append]

theorem Fits.stop_le {i : Nat} {u : List String} {d : Derivation}
    (h : Fits score lexicon words i u d) : i < i + u.length ∧ i + u.length ≤ words.length := by
  have hlength := h.before.length_le
  have hpos := List.length_pos_iff.mpr h.licensed.ne_nil
  rw [List.length_drop] at hlength
  omega

theorem Fits.slice_eq {i : Nat} {u : List String} {d : Derivation}
    (h : Fits score lexicon words i u d) : Chart.slice words (i, i + u.length) = u := by
  rw [Chart.slice, Nat.add_sub_cancel_left]
  exact (List.prefix_iff_eq_take.mp h.before).symm

theorem Fits.eq_words {u : List String} {d : Derivation} (h : Fits score lexicon words 0 u d)
    (hlength : u.length = words.length) : u = words :=
  h.before.eq_of_length (by simpa using hlength)

theorem fits_words_iff {d : Derivation} :
    Fits score lexicon words 0 words d ↔
      Licensed lexicon words d ∧ available score 0 d = true :=
  ⟨fun h => ⟨h.licensed, h.isAvailable⟩, fun h => ⟨List.prefix_rfl, h.1, h.2⟩⟩

/-- At one place, derivations of equally many words have the same words. -/
theorem Fits.words_eq_of_length {i : Nat} {u v : List String} {d e : Derivation}
    (hd : Fits score lexicon words i u d) (he : Fits score lexicon words i v e)
    (hlength : u.length = v.length) : u = v :=
  (List.prefix_of_prefix_length_le hd.before he.before (Nat.le_of_eq hlength)).eq_of_length
    hlength

/-! ## Costs and items -/

section

variable [Add α] [Sub α] [Neg α] [Mul α] [OfNat α 0] [OfNat α 1]

/-- The cost of a derivation that starts at a place: the scores of its leaves, negated, and the
penalties, summed up along the derivation. -/
def cost (score : Nat → Derivation → Option α) (penalty : α) : Nat → Derivation → α
  | i, .leaf c w => -(score i (.leaf c w)).getD 0
  | i, .raisedLeaf x y => -(score i (.raisedLeaf x y)).getD 0
  | i, .raised _ _ child => cost score penalty i child
  | i, .node r left right =>
    cost score penalty i left + cost score penalty (i + left.leaves.length) right +
      penalty * factor (raisings (.node r left right))

omit [Sub α] in
theorem cost_join {penalty : α} {i : Nat} {u : List String} {left right : Derivation}
    (h : Licensed lexicon u left) (g : Join) (x y : Category) :
    cost score penalty i (g.above x y left right) =
      cost score penalty i left + cost score penalty (i + u.length) right +
        penalty * factor (raisings (g.above x y left right)) := by
  rw [← length_leaves h]
  cases g <;> rfl

/-- The item of a derivation of a span. -/
def itemAt (score : Nat → Derivation → Option α) (f : Frame α) (i j : Nat) (d : Derivation) :
    Item α :=
  ⟨cost score f.request.penalty i d + f.outside i j, d, cost score f.request.penalty i d, i, j⟩

theorem parentItem_itemAt {f : Frame α} {i j : Nat} {u : List String} {left right p : Derivation}
    (hleft : Licensed lexicon u left) (hp : p ∈ parents left right) :
    parentItem f (itemAt score f i (i + u.length) left) (itemAt score f (i + u.length) j right) p =
      itemAt score f i j p := by
  obtain ⟨x, y, -, -, g, -, rfl⟩ := mem_parents_iff.mp hp
  rw [parentItem, itemAt, itemAt, itemAt, cost_join hleft]

@[simp] theorem start_itemAt (f : Frame α) (i j : Nat) (d : Derivation) :
    (itemAt score f i j d).start = i :=
  rfl

@[simp] theorem stop_itemAt (f : Frame α) (i j : Nat) (d : Derivation) :
    (itemAt score f i j d).stop = j :=
  rfl

@[simp] theorem derivation_itemAt (f : Frame α) (i j : Nat) (d : Derivation) :
    (itemAt score f i j d).derivation = d :=
  rfl

theorem itemAt_inj {f : Frame α} {i j i' j' : Nat} {d d' : Derivation}
    (h : itemAt score f i j d = itemAt score f i' j' d') : i = i' ∧ j = j' ∧ d = d' :=
  ⟨congrArg Item.start h, congrArg Item.stop h, congrArg Item.derivation h⟩

/-- The item is one of a derivation that fits. -/
def Placed (score : Nat → Derivation → Option α) (lexicon : LexicalEntries) (words : List String)
    (f : Frame α) (a : Item α) : Prop :=
  ∃ i u d, Fits score lexicon words i u d ∧ a = itemAt score f i (i + u.length) d

theorem Placed.fits {f : Frame α} {i j : Nat} {d : Derivation}
    (h : Placed score lexicon words f (itemAt score f i j d)) :
    ∃ u, Fits score lexicon words i u d ∧ j = i + u.length := by
  obtain ⟨i', u, d', hfits, heq⟩ := h
  obtain ⟨rfl, rfl, rfl⟩ := itemAt_inj heq
  exact ⟨u, hfits, rfl⟩

theorem Placed.parentItem {f : Frame α} {left right : Item α} {p : Derivation}
    (hleft : Placed score lexicon words f left) (hright : Placed score lexicon words f right)
    (hnext : left.stop = right.start)
    (hp : p ∈ parents left.derivation right.derivation) :
    Placed score lexicon words f (parentItem f left right p) ∧
      parentItem f left right p = itemAt score f left.start right.stop p := by
  obtain ⟨i, u, l, hl, rfl⟩ := hleft
  obtain ⟨k, v, r, hr, rfl⟩ := hright
  obtain rfl : i + u.length = k := hnext
  have hitem : Search.parentItem f (itemAt score f i (i + u.length) l)
      (itemAt score f (i + u.length) (i + u.length + v.length) r) p =
        itemAt score f i (i + u.length + v.length) p :=
    parentItem_itemAt hl.licensed hp
  refine ⟨⟨i, u ++ v, p, hl.join hr hp, ?_⟩, hitem⟩
  rw [List.length_append, ← Nat.add_assoc]
  exact hitem

end

/-! ## The leaves of a sentence -/

/-- The available leaves of a word at a position, with their scores. -/
def leavesAt (score : Nat → Derivation → Option α) (lexicon : LexicalEntries) (position : Nat)
    (word : String) : List (Derivation × α) :=
  (lexicon word).filterMap fun c =>
    (score position (.leaf c (some word))).map fun s => (.leaf c (some word), s)

/-- The available leaves of all words from a position on. -/
def sentenceLeaves (score : Nat → Derivation → Option α) (lexicon : LexicalEntries)
    (position : Nat) (words : List String) : List (List (Derivation × α)) :=
  (words.zipIdx position).map fun p => leavesAt score lexicon p.2 p.1

theorem mem_leavesAt_iff {i : Nat} {w : String} {leaf : Derivation × α} :
    leaf ∈ leavesAt score lexicon i w ↔
      ∃ c ∈ lexicon w, leaf.1 = .leaf c (some w) ∧ score i leaf.1 = some leaf.2 := by
  simp only [leavesAt, List.mem_filterMap, Option.map_eq_some_iff]
  constructor
  · rintro ⟨c, hc, s, hs, rfl⟩
    exact ⟨c, hc, rfl, hs⟩
  · rintro ⟨c, hc, hleaf, hs⟩
    exact ⟨c, hc, leaf.2, hleaf ▸ hs, by rw [← hleaf]⟩

theorem getElem?_sentenceLeaves (i : Nat) :
    (sentenceLeaves score lexicon 0 words)[i]? =
      words[i]?.map (leavesAt score lexicon i) := by
  simp [sentenceLeaves, Function.comp_def]

theorem length_sentenceLeaves : (sentenceLeaves score lexicon 0 words).length = words.length := by
  simp [sentenceLeaves]

/-- Where a derivation fits, every word has an available leaf. -/
theorem Fits.leavesAt_ne_nil {i : Nat} {u : List String} {d : Derivation}
    (h : Fits score lexicon words i u d) :
    ∀ p ∈ u.zipIdx i, leavesAt score lexicon p.2 p.1 ≠ [] := by
  refine h.induction (motive := fun i u _ => ∀ p ∈ u.zipIdx i, leavesAt score lexicon p.2 p.1 ≠ [])
    ?_ ?_
  · intro i w c _ hc hscore p hp
    obtain rfl : p = (w, i) := by simpa using hp
    obtain ⟨s, hs⟩ := Option.isSome_iff_exists.mp hscore
    have hmem : ((.leaf c (some w), s) : Derivation × α) ∈ leavesAt score lexicon i w :=
      mem_leavesAt_iff.mpr ⟨c, hc, rfl, hs⟩
    exact List.ne_nil_of_mem hmem
  · intro i u v left right d _ _ _ ihl ihr p hp
    rw [List.zipIdx_append] at hp
    rcases List.mem_append.mp hp with hp | hp
    · exact ihl p hp
    · exact ihr p hp

section

variable [Add α] [Sub α] [Neg α] [Mul α] [OfNat α 0] [OfNat α 1] [LT α] [DecidableLT α]

omit [LT α] [DecidableLT α] in
theorem mem_leafItems_iff {f : Frame α} {a : Item α} :
    a ∈ leafItems f (sentenceLeaves score lexicon 0 words) ↔
      ∃ i w c, words[i]? = some w ∧ c ∈ lexicon w ∧ (score i (.leaf c (some w))).isSome ∧
        a = itemAt score f i (i + 1) (.leaf c (some w)) := by
  simp only [leafItems, List.mem_flatMap, List.mem_map, Prod.exists, List.mem_zipIdx_iff_getElem?,
    getElem?_sentenceLeaves, Option.map_eq_some_iff]
  constructor
  · rintro ⟨ls, i, ⟨w, hw, rfl⟩, d, s, hleaf, rfl⟩
    obtain ⟨c, hc, rfl, hs⟩ := mem_leavesAt_iff.mp hleaf
    have hscore : score i (.leaf c (some w)) = some s := hs
    refine ⟨i, w, c, hw, hc, by rw [hscore]; rfl, ?_⟩
    simp [leafItem, itemAt, cost, hscore]
  · rintro ⟨i, w, c, hw, hc, hscore, rfl⟩
    obtain ⟨s, hs⟩ := Option.isSome_iff_exists.mp hscore
    refine ⟨_, i, ⟨w, hw, rfl⟩, .leaf c (some w), s, mem_leavesAt_iff.mpr ⟨c, hc, rfl, hs⟩, ?_⟩
    simp [leafItem, itemAt, cost, hs]

end

/-- The frame of a search for a sentence. -/
def sentenceFrame [Add α] [OfNat α 0] [LT α] [DecidableLT α]
    (score : Nat → Derivation → Option α) (lexicon : LexicalEntries) (request : Request α)
    (words : List String) : Frame α :=
  frame request (sentenceLeaves score lexicon 0 words)

theorem size_sentenceFrame [Add α] [OfNat α 0] [LT α] [DecidableLT α] (request : Request α) :
    (sentenceFrame score lexicon request words).size = words.length :=
  length_sentenceLeaves

/-! ## Scoring the leaves -/

variable {ε : Type}

/-- The scorer has an answer for every word of the sentence and each of its categories. -/
def Answers (scorer : Scorer ε α) (lexicon : LexicalEntries) (position : Nat)
    (words : List String) : Prop :=
  ∀ p ∈ words.zipIdx position, ∀ c ∈ lexicon p.1, ∃ s, scorer p.2 p.1 c = .ok s

theorem scoredLeaves_eq {scorer : Scorer ε α} {position : Nat} {word : String}
    (h : ∀ c ∈ lexicon word, ∃ s, scorer position word c = .ok s) :
    scoredLeaves scorer lexicon position word =
      .ok (leavesAt scorer.leafScore lexicon position word) := by
  unfold scoredLeaves leavesAt
  generalize lexicon word = cs at h
  suffices hmap : cs.mapM (fun c => do
      return (← scorer position word c).map fun score => (Derivation.leaf c (some word), score)) =
      (.ok (cs.map fun c => (scorer.leafScore position (.leaf c (some word))).map fun s =>
        (.leaf c (some word), s)) : Except ε _) by
    rw [hmap]
    simp [List.filterMap_map, bind, Except.bind, pure, Except.pure]
  induction cs with
  | nil => rfl
  | cons c cs ih =>
    obtain ⟨s, hs⟩ := h c List.mem_cons_self
    rw [List.mapM_cons, ih fun c' hc' => h c' (List.mem_cons_of_mem _ hc'), hs]
    simp [Scorer.leafScore, hs, bind, Except.bind, pure, Except.pure]

/-- The leaves of all words are found, or one of the words has none. -/
theorem leavesFrom_spec {scorer : Scorer ε α} {position : Nat} {words : List String}
    (h : Answers scorer lexicon position words) :
    (∃ unknown, leavesFrom scorer lexicon position words = .ok (.inl unknown) ∧
        ∃ p ∈ words.zipIdx position, leavesAt scorer.leafScore lexicon p.2 p.1 = []) ∨
      leavesFrom scorer lexicon position words =
        .ok (.inr (sentenceLeaves scorer.leafScore lexicon position words)) := by
  induction words generalizing position with
  | nil => exact .inr rfl
  | cons word words ih =>
    have hword := scoredLeaves_eq fun c hc => h (word, position) (by simp) c hc
    rw [leavesFrom, hword]
    cases hleaves : leavesAt scorer.leafScore lexicon position word with
    | nil => exact .inl ⟨word, rfl, (word, position), by simp, hleaves⟩
    | cons leaf leaves =>
      have hrest : Answers scorer lexicon (position + 1) words :=
        fun p hp => h p (by rw [List.zipIdx_cons]; exact List.mem_cons_of_mem _ hp)
      rcases ih hrest with ⟨unknown, hfrom, p, hp, hnone⟩ | hfrom
      · refine .inl ⟨unknown, ?_, p, ?_, hnone⟩
        · simp [bind, Except.bind, pure, Except.pure, hfrom]
        · rw [List.zipIdx_cons]
          exact List.mem_cons_of_mem _ hp
      · refine .inr ?_
        simp [bind, Except.bind, pure, Except.pure, hfrom, sentenceLeaves, hleaves]

end Search

end Categorial

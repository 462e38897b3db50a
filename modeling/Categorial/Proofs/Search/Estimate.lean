import Mathlib.Algebra.Order.Ring.Rat
import Mathlib.Algebra.BigOperators.Group.List.Basic
import Mathlib.Tactic.Linarith
import Mathlib.Tactic.Ring
import Categorial.Proofs.Search.Placement

/-!
# Costs and estimates over the rational numbers

With exact numbers the cost of a derivation is its score, negated. The words outside of its span
cost at least what the estimate says, since each leaf scores at most the best of its word, and the
estimate is exact in that a longer derivation never has a smaller priority than its parts.

* `Search.cost_eq`: the cost of a derivation, from its leaves and raised categories.
* `Search.Estimates`, `Search.estimates_sentenceFrame`: what the sums of the best scores are good
  for.
* `Search.Estimates.priority_le_of_mem_parents`: priorities grow from the parts to the whole.
* `Search.Estimates.priority_words`: a derivation of all words has its cost as its priority.
-/

namespace Categorial

open Categorial.Derivation

/-- How many raised categories a derivation contains. -/
def Derivation.raisedCount : Derivation → Nat
  | leaf .. => 0
  | raisedLeaf .. => 1
  | raised _ _ child => child.raisedCount + 1
  | node _ left right => left.raisedCount + right.raisedCount

/-- The score of a derivation of a sentence: those of its leaves, less a penalty for each raised
category. -/
def Scorer.total {ε : Type} (scorer : Scorer ε ℚ) (penalty : ℚ) (d : Derivation) : ℚ :=
  (d.leaves.zipIdx.map fun p => (scorer.leafScore p.2 p.1).getD 0).sum - penalty * d.raisedCount

namespace Search

variable {score : Nat → Derivation → Option ℚ} {lexicon : LexicalEntries} {words : List String}

/-! ## Costs -/

/-- How many categories a join raises. -/
def raisingsOf : Join → Nat
  | .rule _ => 0
  | .raising => 1

theorem raisings_above {g : Join} {x y : Category} {u : List String} {left right : Derivation}
    (h : Licensed lexicon u left) : raisings (g.above x y left right) = raisingsOf g := by
  cases g with
  | rule r => cases h <;> rfl
  | raising => rfl

theorem raisedCount_above {g : Join} {x y : Category} {left right : Derivation} :
    (g.above x y left right).raisedCount =
      left.raisedCount + right.raisedCount + raisingsOf g := by
  cases g with
  | rule r => rfl
  | raising =>
    simp only [Join.above, raisedCount, raisingsOf]
    omega

theorem factor_raisingsOf (g : Join) : factor (raisingsOf g) = (raisingsOf g : ℚ) := by
  cases g <;> simp [factor, raisingsOf]

theorem cost_above {penalty : ℚ} {i : Nat} {u : List String} {left right : Derivation}
    (h : Licensed lexicon u left) (g : Join) (x y : Category) :
    cost score penalty i (g.above x y left right) =
      cost score penalty i left + cost score penalty (i + u.length) right +
        penalty * raisingsOf g := by
  rw [cost_join h, raisings_above h, factor_raisingsOf]

/-- The sum of the scores of the leaves of a derivation that starts at a place. -/
def leafSum (score : Nat → Derivation → Option ℚ) (i : Nat) (d : Derivation) : ℚ :=
  ((d.leaves.zipIdx i).map fun p => (score p.2 p.1).getD 0).sum

theorem leafSum_of_mem_parents {i : Nat} {u : List String} {left right p : Derivation}
    (h : Licensed lexicon u left) (hp : p ∈ parents left right) :
    leafSum score i p = leafSum score i left + leafSum score (i + u.length) right := by
  rw [leafSum, leaves_of_mem_parents hp, List.zipIdx_append, List.map_append, List.sum_append,
    length_leaves h]
  rfl

theorem cost_eq {penalty : ℚ} {i : Nat} {u : List String} {d : Derivation}
    (h : Licensed lexicon u d) :
    cost score penalty i d = -(leafSum score i d - penalty * d.raisedCount) := by
  induction h using Licensed.induction generalizing i with
  | leaf _ => simp [cost, leafSum, leaves, raisedCount]
  | @parent u v left right p hleft hright hp ihl ihr =>
    obtain ⟨x, y, -, -, g, -, rfl⟩ := mem_parents_iff.mp hp
    rw [cost_above hleft, ihl, ihr, leafSum_of_mem_parents hleft hp, raisedCount_above]
    push_cast
    ring

/-! ## Estimates -/

/-- The sum of the best scores in front of a place. -/
def Frame.upTo (f : Frame ℚ) (k : Nat) : ℚ :=
  f.sums.getD k 0

/-- Every available leaf scores at most what its word adds to the sums. -/
structure Estimates (score : Nat → Derivation → Option ℚ) (lexicon : LexicalEntries)
    (words : List String) (f : Frame ℚ) : Prop where
  zero : f.upTo 0 = 0
  size : f.sums.size = words.length + 1
  leaf : ∀ {i w c s}, words[i]? = some w → c ∈ lexicon w →
    score i (.leaf c (some w)) = some s → s ≤ f.upTo (i + 1) - f.upTo i

theorem outside_eq (f : Frame ℚ) (i j : Nat) :
    f.outside i j = f.upTo j - f.upTo i - f.upTo (f.sums.size - 1) := by
  simp only [Frame.outside, outsideOf, Frame.upTo]
  ring

/-- A derivation costs at least what the best scores of its words make. -/
theorem Estimates.le_cost {f : Frame ℚ} (h : Estimates score lexicon words f) {penalty : ℚ}
    (hpenalty : 0 ≤ penalty) {i : Nat} {u : List String} {d : Derivation}
    (hfits : Fits score lexicon words i u d) :
    f.upTo i - f.upTo (i + u.length) ≤ cost score penalty i d := by
  refine hfits.induction
    (motive := fun i u d => f.upTo i - f.upTo (i + u.length) ≤ cost score penalty i d) ?_ ?_
  · intro i w c hw hc hscore
    obtain ⟨s, hs⟩ := Option.isSome_iff_exists.mp hscore
    have hle := h.leaf hw hc hs
    simp only [cost, hs, Option.getD_some, List.length_singleton]
    linarith
  · intro i u v left right p hleft hright hp ihl ihr
    obtain ⟨x, y, -, -, g, -, rfl⟩ := mem_parents_iff.mp hp
    have hraise : 0 ≤ penalty * (raisingsOf g : ℚ) := mul_nonneg hpenalty (Nat.cast_nonneg _)
    rw [cost_above hleft.licensed, List.length_append, ← Nat.add_assoc]
    linarith

/-- The priority of a derivation above two others is at least that of each of them. -/
theorem Estimates.priority_le_of_mem_parents {f : Frame ℚ} (h : Estimates score lexicon words f)
    (hpenalty : 0 ≤ f.request.penalty) {i : Nat} {u v : List String} {left right p : Derivation}
    (hleft : Fits score lexicon words i u left)
    (hright : Fits score lexicon words (i + u.length) v right) (hp : p ∈ parents left right) :
    (itemAt score f i (i + u.length) left).priority ≤
        (itemAt score f i (i + u.length + v.length) p).priority ∧
      (itemAt score f (i + u.length) (i + u.length + v.length) right).priority ≤
        (itemAt score f i (i + u.length + v.length) p).priority := by
  have hlel := h.le_cost hpenalty hleft
  have hler := h.le_cost hpenalty hright
  obtain ⟨x, y, -, -, g, -, rfl⟩ := mem_parents_iff.mp hp
  have hraise : 0 ≤ f.request.penalty * (raisingsOf g : ℚ) :=
    mul_nonneg hpenalty (Nat.cast_nonneg _)
  simp only [itemAt, outside_eq, cost_above hleft.licensed]
  constructor <;> linarith

theorem Estimates.priority_words {f : Frame ℚ} (h : Estimates score lexicon words f)
    (d : Derivation) :
    (itemAt score f 0 words.length d).priority = (itemAt score f 0 words.length d).cost := by
  simp only [itemAt, outside_eq, h.zero, h.size, Nat.add_sub_cancel]
  ring

/-! ## The sums of the best scores -/

theorem le_best {ls : List (Derivation × ℚ)} {p : Derivation × ℚ} (hp : p ∈ ls) :
    p.2 ≤ best ls := by
  have hfold : ∀ (rest : List (Derivation × ℚ)) (m : ℚ),
      m ≤ rest.foldl (fun m p => if m < p.2 then p.2 else m) m ∧
        ∀ p ∈ rest, p.2 ≤ rest.foldl (fun m p => if m < p.2 then p.2 else m) m := by
    intro rest
    induction rest with
    | nil => simp
    | cons a rest ih =>
      intro m
      obtain ⟨hmax, hrest⟩ := ih (if m < a.2 then a.2 else m)
      have hboth : m ≤ (if m < a.2 then a.2 else m) ∧ a.2 ≤ if m < a.2 then a.2 else m := by
        split
        · next hlt => exact ⟨hlt.le, le_refl _⟩
        · next hlt => exact ⟨le_refl _, not_lt.mp hlt⟩
      refine ⟨hboth.1.trans hmax, fun p hp => ?_⟩
      rcases List.mem_cons.mp hp with rfl | hp
      · exact hboth.2.trans hmax
      · exact hrest p hp
  cases ls with
  | nil => cases hp
  | cons a rest =>
    obtain ⟨hmax, hrest⟩ := hfold rest a.2
    rcases List.mem_cons.mp hp with rfl | hp
    · exact hmax
    · exact hrest p hp

theorem prefixSums_eq (bs : List ℚ) : prefixSums bs = 0 :: runningSums 0 bs := by
  cases bs with
  | nil => rfl
  | cons b bs => rw [prefixSums, runningSums, zero_add]

/-- Each sum is the one before and one element. -/
theorem getElem?_cons_runningSums (acc : ℚ) {bs : List ℚ} {k : Nat} {b : ℚ}
    (hb : bs[k]? = some b) :
    ∃ s, (acc :: runningSums acc bs)[k]? = some s ∧ (runningSums acc bs)[k]? = some (s + b) := by
  induction bs generalizing acc k with
  | nil => cases hb
  | cons a bs ih =>
    cases k with
    | zero =>
      obtain rfl : a = b := Option.some.inj hb
      exact ⟨acc, rfl, rfl⟩
    | succ k => exact ih (acc + a) hb

theorem estimates_sentenceFrame (score : Nat → Derivation → Option ℚ) (lexicon : LexicalEntries)
    (words : List String) (request : Request ℚ) :
    Estimates score lexicon words (sentenceFrame score lexicon request words) := by
  have hget : ∀ k, (sentenceFrame score lexicon request words).upTo k =
      ((0 :: runningSums 0 ((sentenceLeaves score lexicon 0 words).map best))[k]?).getD 0 := by
    intro k
    rw [← prefixSums_eq, Frame.upTo, sentenceFrame, frame, outsideSums, Array.getD_eq_getD_getElem?,
      List.getElem?_toArray]
  refine ⟨by rw [hget]; rfl, ?_, ?_⟩
  · simp [sentenceFrame, frame, outsideSums, length_prefixSums, length_sentenceLeaves]
  · intro i w c s hw hc hs
    have hbest : ((sentenceLeaves score lexicon 0 words).map best)[i]? =
        some (best (leavesAt score lexicon i w)) := by
      rw [List.getElem?_map, getElem?_sentenceLeaves, hw]
      rfl
    obtain ⟨t, ht, hnext⟩ := getElem?_cons_runningSums 0 hbest
    have hle : s ≤ best (leavesAt score lexicon i w) :=
      le_best (p := (.leaf c (some w), s)) (mem_leavesAt_iff.mpr ⟨c, hc, rfl, hs⟩)
    rw [hget, hget, ht, List.getElem?_cons_succ, hnext]
    simpa using hle

end Search

end Categorial

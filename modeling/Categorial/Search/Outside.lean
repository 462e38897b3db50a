/-!
# Outside scores

What the words outside of a span score at best. The scores of the words are summed up from the
left once, each sum from the one before, and a span is the difference of two sums.

The numbers may be of any kind with the usual operations; no law of arithmetic is assumed.

* `length_prefixSums`: a sentence of `n` words has `n + 1` sums.
* `outsideScores`: the scores of all spans as a matrix.
-/

namespace Categorial

variable {α : Type} [Add α]

/-- The sums of a list, each with one element more, that start from `acc`. -/
def runningSums (acc : α) : List α → List α
  | [] => []
  | b :: bs => (acc + b) :: runningSums (acc + b) bs

theorem length_runningSums (acc : α) (bs : List α) : (runningSums acc bs).length = bs.length := by
  induction bs generalizing acc with
  | nil => rfl
  | cons b bs ih => simp only [runningSums, List.length_cons, ih]

variable [OfNat α 0]

/-- Zero, and the sums of the first one, two and more elements. -/
def prefixSums : List α → List α
  | [] => [0]
  | b :: bs => 0 :: b :: runningSums b bs

theorem length_prefixSums (bs : List α) : (prefixSums bs).length = bs.length + 1 := by
  cases bs with
  | nil => rfl
  | cons b bs => simp only [prefixSums, List.length_cons, length_runningSums]

/-- The sums of the best scores of the words, for `outsideOf`. -/
def outsideSums (best : List α) : Array α :=
  (prefixSums best).toArray

variable [Sub α]

/-- The best score of the words outside of the span from place `i` to place `j`, from the sums. -/
def outsideOf (sums : Array α) (i j : Nat) : α :=
  sums.getD (sums.size - 1) 0 - (sums.getD j 0 - sums.getD i 0)

/-- The outside scores of all spans, a row for each start. -/
def outsideScores (best : List α) : List (List α) :=
  let sums := outsideSums best
  (List.range sums.size).map fun i => (List.range sums.size).map fun j => outsideOf sums i j

end Categorial

import Std.Data.HashMap
import Categorial.Grammar.Combination

/-!
# Remembered inferences

The inferences for a pair of categories, worked out once and looked up afterwards. Two pairs share
an entry only if they are equal, so categories that are merely written alike stay apart. Every
entry has a serial number, which tells whether two look-ups were answered by one entry.

* `Cache.infer`: the inferences for a pair, and the cache afterwards.
* `Cache.trace`: a whole sequence of look-ups.
-/

namespace Categorial

/-- The inferences found so far, by pair. -/
structure Cache where
  entries : Std.HashMap (Category × Category) (Nat × List Inference)

namespace Cache

/-- The cache without entries. -/
def empty : Cache :=
  ⟨∅⟩

/-- The number of pairs in the cache. -/
def size (c : Cache) : Nat :=
  c.entries.size

/-- The serial number and the inferences of a pair, which is entered if it is new. -/
def lookup (c : Cache) (x y : Category) : (Nat × List Inference) × Cache :=
  match c.entries[(x, y)]? with
  | some found => (found, c)
  | none =>
    let entry := (c.size, inferences x y)
    (entry, ⟨c.entries.insert (x, y) entry⟩)

/-- The inferences for a pair, with the cache as state. -/
def infer (x y : Category) : StateM Cache (List Inference) := fun c =>
  let (found, c) := c.lookup x y
  (found.2, c)

/-- One look-up of a sequence: the inferences, the earlier look-up that was answered by the same
entry, if any, and the number of entries afterwards. -/
structure Step where
  results : List Inference
  sameAs : Option Nat
  size : Nat

/-- The look-ups of a sequence of pairs that share a cache; `serials` are the entries that
answered the look-ups so far. -/
def traceFrom (c : Cache) (serials : List Nat) : List (Category × Category) → List Step
  | [] => []
  | (x, y) :: pairs =>
    let ((serial, results), c) := c.lookup x y
    ⟨results, serials.findIdx? (· == serial), c.size⟩ :: traceFrom c (serials ++ [serial]) pairs

/-- The look-ups of a sequence of pairs that start with an empty cache. -/
def trace (pairs : List (Category × Category)) : List Step :=
  traceFrom empty [] pairs

/-- The same sequence without a cache: nothing is shared and nothing is remembered. -/
def traceUncached (pairs : List (Category × Category)) : List Step :=
  pairs.map fun (x, y) => ⟨inferences x y, none, 0⟩

end Cache

end Categorial

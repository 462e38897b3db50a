import Std.Data.HashMap
import Categorial.Ordered.Set

/-!
# Ordered maps

Values by key, with the keys in the order in which they first came in. A value that is put under a
key that is there takes the place of the old one.

* `get?_insert`: putting a value changes what is found under its key and nothing else.
* `keys_insert`: only a new key is added, as the last one.
-/

namespace Categorial

/-- Values by key, the keys in the order of their first insertion. -/
structure OrderedMap (κ ν : Type) [BEq κ] [Hashable κ] where
  order : OrderedSet κ
  table : Std.HashMap κ ν

namespace OrderedMap

variable {κ ν : Type} [DecidableEq κ] [Hashable κ]

/-- The map without keys. -/
def empty : OrderedMap κ ν :=
  ⟨.empty, ∅⟩

/-- The keys in order. -/
def keys (m : OrderedMap κ ν) : List κ :=
  m.order.toList

/-- The number of keys. -/
def size (m : OrderedMap κ ν) : Nat :=
  m.order.size

/-- The value under a key. -/
def get? (m : OrderedMap κ ν) (k : κ) : Option ν :=
  m.table[k]?

/-- Puts a value under a key. -/
def insert (m : OrderedMap κ ν) (k : κ) (v : ν) : OrderedMap κ ν :=
  ⟨m.order.insert k, m.table.insert k v⟩

/-- The keys with their values, in order. -/
def toList (m : OrderedMap κ ν) : List (κ × ν) :=
  m.keys.filterMap fun k => (m.get? k).map (k, ·)

/-- The map of the given pairs, put in one after the other. -/
def ofList (pairs : List (κ × ν)) : OrderedMap κ ν :=
  pairs.foldl (fun m p => m.insert p.1 p.2) empty

@[simp] theorem get?_empty (k : κ) : (empty : OrderedMap κ ν).get? k = none := by
  simp [get?, empty]

@[simp] theorem keys_empty : (empty : OrderedMap κ ν).keys = [] :=
  rfl

theorem get?_insert (m : OrderedMap κ ν) (k k' : κ) (v : ν) :
    (m.insert k v).get? k' = if k = k' then some v else m.get? k' := by
  simp only [get?, insert, Std.HashMap.getElem?_insert, beq_iff_eq]

theorem keys_insert (m : OrderedMap κ ν) (k : κ) (v : ν) :
    (m.insert k v).keys = if k ∈ m.keys then m.keys else m.keys ++ [k] :=
  m.order.toList_insert k

end OrderedMap

end Categorial

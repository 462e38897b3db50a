import Std.Data.HashSet
import Categorial.Ordered.Distinct

/-!
# Ordered sets

A collection without repetition that remembers the order in which its elements first came in. An
index beside the elements makes membership cheap; the two always agree.

* `toList_insert`: an element that is there is not added again, a new one comes last.
* `toList_insertAll_eq_append`: a batch adds its new elements in the order of their first
  occurrence.
* `insertAll_eraseDups`: repetitions in a batch make no difference.
-/

namespace Categorial

/-- Elements in the order of their first insertion, each once. -/
structure OrderedSet (α : Type) [BEq α] [Hashable α] where
  elements : Array α
  index : Std.HashSet α
  contains_iff : ∀ a, index.contains a = elements.contains a

namespace OrderedSet

variable {α : Type} [DecidableEq α] [Hashable α]

/-- The set without elements. -/
def empty : OrderedSet α :=
  ⟨#[], ∅, by simp⟩

/-- The elements in order. -/
def toList (s : OrderedSet α) : List α :=
  s.elements.toList

/-- Whether an element is in the set. -/
def contains (s : OrderedSet α) (a : α) : Bool :=
  s.index.contains a

/-- The number of elements. -/
def size (s : OrderedSet α) : Nat :=
  s.elements.size

/-- Adds an element at the end unless it is there. -/
def insert (s : OrderedSet α) (a : α) : OrderedSet α :=
  if s.index.contains a then s
  else ⟨s.elements.push a, s.index.insert a, by
    intro b
    rw [Std.HashSet.contains_insert, s.contains_iff, Array.contains_push, Bool.or_comm, BEq.comm]⟩

/-- Adds elements one after the other. -/
def insertAll (s : OrderedSet α) (as : List α) : OrderedSet α :=
  as.foldl insert s

@[simp] theorem toList_empty : (empty : OrderedSet α).toList = [] :=
  rfl

theorem size_eq (s : OrderedSet α) : s.size = s.toList.length :=
  rfl

theorem contains_eq (s : OrderedSet α) (a : α) : s.contains a = decide (a ∈ s.toList) := by
  rw [contains, s.contains_iff, toList, Bool.eq_iff_iff, Array.contains_iff_mem,
    decide_eq_true_eq, Array.mem_toList_iff]

theorem toList_insert (s : OrderedSet α) (a : α) :
    (s.insert a).toList = if a ∈ s.toList then s.toList else s.toList ++ [a] := by
  have h : s.index.contains a = decide (a ∈ s.toList) := s.contains_eq a
  by_cases ha : a ∈ s.toList
  · simp only [insert, h, ha, decide_true, if_true]
  · simp only [insert, h, ha, decide_false, Bool.false_eq_true, if_false]
    simp [toList]

theorem mem_toList_insert {s : OrderedSet α} {a b : α} :
    b ∈ (s.insert a).toList ↔ b ∈ s.toList ∨ b = a := by
  rw [toList_insert]
  split
  · next h => exact ⟨.inl, fun hb => hb.elim id fun hba => hba ▸ h⟩
  · rw [List.mem_append, List.mem_singleton]

theorem insert_of_mem {s : OrderedSet α} {a : α} (h : a ∈ s.toList) : s.insert a = s := by
  have hindex : s.index.contains a = true := by
    rw [← contains, contains_eq, decide_eq_true h]
  rw [insert, if_pos hindex]

theorem contains_insert (s : OrderedSet α) (a b : α) :
    (s.insert a).contains b = (a == b || s.contains b) := by
  simp only [contains, insert]
  split
  · next h =>
    by_cases hab : a = b
    · subst hab
      simp [h]
    · simp [hab]
  · rw [Std.HashSet.contains_insert]

theorem toList_insertAll_eq_append (s : OrderedSet α) (as : List α) :
    (s.insertAll as).toList = s.toList ++ (as.removeAll s.toList).eraseDups := by
  induction as generalizing s with
  | nil => simp [insertAll]
  | cons a as ih =>
    rw [insertAll, List.foldl_cons, ← insertAll, ih, toList_insert, List.cons_removeAll]
    by_cases ha : a ∈ s.toList
    · simp [ha]
    · simp [ha, Distinct.removeAll_concat, List.eraseDups_cons]

/-- What is there already need not be in a batch. -/
theorem insertAll_filter {s : OrderedSet α} {a : α} (h : a ∈ s.toList) (as : List α) :
    s.insertAll (as.filter fun b => !b == a) = s.insertAll as := by
  induction as generalizing s with
  | nil => rfl
  | cons b as ih =>
    by_cases hb : b = a
    · subst hb
      rw [List.filter_cons_of_neg (by simp), ih h, insertAll, insertAll, List.foldl_cons,
        insert_of_mem h]
    · have hmem : a ∈ (s.insert b).toList := mem_toList_insert.mpr (.inl h)
      rw [List.filter_cons_of_pos (by simpa using hb), insertAll, List.foldl_cons, ← insertAll,
        ih hmem, insertAll, insertAll, List.foldl_cons]

theorem insertAll_eraseDups (s : OrderedSet α) (as : List α) :
    s.insertAll as.eraseDups = s.insertAll as := by
  match as with
  | [] => rfl
  | a :: as =>
    have hmem : a ∈ (s.insert a).toList := mem_toList_insert.mpr (.inr rfl)
    rw [List.eraseDups_cons, insertAll, List.foldl_cons, ← insertAll, insertAll_eraseDups,
      insertAll_filter hmem, insertAll, insertAll, List.foldl_cons]
termination_by as.length
decreasing_by exact Distinct.length_filter_lt a as

end OrderedSet

end Categorial

import Std.Data.HashMap

/-!
# Grouped elements

Elements filed under a key, those of one key in the order in which they came in.

* `group_insert`: an element joins the group of its key, at the end, and no other group.
-/

namespace Categorial

/-- Elements by key. -/
structure Grouped (κ α : Type) [BEq κ] [Hashable κ] where
  groups : Std.HashMap κ (Array α)

namespace Grouped

variable {κ α : Type} [BEq κ] [Hashable κ]

/-- No element under any key. -/
def empty : Grouped κ α :=
  ⟨∅⟩

/-- The elements under a key. -/
def group (g : Grouped κ α) (k : κ) : List α :=
  (g.groups.getD k #[]).toList

/-- Files an element under a key. -/
def insert (g : Grouped κ α) (k : κ) (a : α) : Grouped κ α :=
  ⟨g.groups.alter k fun as => some ((as.getD #[]).push a)⟩

@[simp] theorem group_empty (k : κ) : (empty : Grouped κ α).group k = [] := by
  simp [group, empty]

theorem group_insert [LawfulBEq κ] (g : Grouped κ α) (k k' : κ) (a : α) :
    (g.insert k a).group k' = if k == k' then g.group k' ++ [a] else g.group k' := by
  simp only [group, insert, Std.HashMap.getD_alter]
  split
  · next h =>
    obtain rfl := eq_of_beq h
    simp [Std.HashMap.getD_eq_getD_getElem?]
  · rfl

end Grouped

end Categorial

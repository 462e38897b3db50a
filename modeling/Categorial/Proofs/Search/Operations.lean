import Categorial.Proofs.Search.HeapOrder

/-!
# Sequences of operations on an agenda

Whatever is done with an agenda, and whatever its relation is, what it holds and what was removed
are together what it was made of and what was inserted. Over a strict weak order the agenda is a
heap all the time, so that the next element to be removed is a least one, and is the one that can be
looked at.

* `Agenda.perm_perform`, `Agenda.isHeap_perform`: one operation.
* `Agenda.perm_removedBy`, `Agenda.isHeap_after`: a sequence of operations.
* `Agenda.perm_drain`, `Agenda.pairwise_drainFrom`: taking out all that is left.
* `agenda_conserves_and_orders`: what an agenda is good for after any sequence of operations.
-/

namespace Categorial

variable {α : Type} {lt : α → α → Bool}

namespace AgendaOperation

/-- The element that an operation brings in. -/
def inserted : AgendaOperation α → List α
  | insert a => [a]
  | remove | peek => []

/-- The element that an operation took out, as its answer says. -/
def removed : AgendaOperation α → Except AgendaError (Option α) → List α
  | remove, .ok answer => answer.toList
  | _, _ => []

end AgendaOperation

namespace Agenda

/-- The queue after a sequence of operations. -/
def after (lt : α → α → Bool) (q : Agenda α) (ops : List (AgendaOperation α)) : Agenda α :=
  ops.foldl (fun q op => (q.perform lt op).2) q

/-- The elements that a sequence of operations takes out, in order. -/
def removedBy (lt : α → α → Bool) (q : Agenda α) : List (AgendaOperation α) → List α
  | [] => []
  | op :: ops => op.removed (q.perform lt op).1 ++ removedBy lt (q.perform lt op).2 ops

/-! ## One operation -/

theorem remove?_eq_none_iff {q : Agenda α} : q.remove? lt = none ↔ q.toList = [] := by
  unfold remove?
  cases hback : q.heap.back? with
  | none =>
    have hempty : q.heap = #[] := Array.back?_eq_none_iff.mp hback
    simp only [toList, hempty]
  | some last =>
    have hne : q.heap ≠ #[] := fun hempty => by simp [hempty] at hback
    have hlist : q.toList ≠ [] := fun hnil => hne (Array.toList_eq_nil_iff.mp hnil)
    simp only [hlist, iff_false]
    split <;> simp

/-- What can be looked at is what would be removed. -/
theorem peek?_eq_map_remove? (lt : α → α → Bool) (q : Agenda α) :
    q.peek? = (q.remove? lt).map (·.1) := by
  cases hout : q.remove? lt with
  | none =>
    have hempty : q.heap = #[] := Array.toList_eq_nil_iff.mp (remove?_eq_none_iff.mp hout)
    simp [peek?, hempty]
  | some out => exact getElem?_zero_of_remove? hout

theorem perform_of_remove? {q rest : Agenda α} {a : α} (hout : q.remove? lt = some (a, rest)) :
    q.perform lt .remove = (.ok (some a), rest) ∧ q.perform lt .peek = (.ok (some a), q) := by
  have hpeek : q.peek? = some a := by rw [peek?_eq_map_remove? lt, hout, Option.map_some]
  simp only [perform, steps, removeMin, peekMin, Change.on_bind, Change.on_get, hout, hpeek,
    Change.on_set, Change.on_pure, and_self]

theorem perform_of_empty {q : Agenda α} (hempty : q.toList = []) :
    q.perform lt .remove = (.error .nothingToRemove, q) ∧
      q.perform lt .peek = (.error .nothingToPeek, q) := by
  have hout : q.remove? lt = none := remove?_eq_none_iff.mpr hempty
  have hpeek : q.peek? = none := by rw [peek?_eq_map_remove? lt, hout, Option.map_none]
  simp only [perform, steps, removeMin, peekMin, Change.on_bind, Change.on_get, hout, hpeek,
    Change.on_throw, and_self]

/-- A queue that holds something has an element to remove. -/
theorem exists_remove? (lt : α → α → Bool) {q : Agenda α} (hq : q.toList ≠ []) :
    ∃ a rest, q.remove? lt = some (a, rest) := by
  obtain ⟨⟨a, rest⟩, hout⟩ := Option.ne_none_iff_exists'.mp (mt remove?_eq_none_iff.mp hq)
  exact ⟨a, rest, hout⟩

theorem perform_peek_snd (lt : α → α → Bool) (q : Agenda α) : (q.perform lt .peek).2 = q := by
  by_cases hempty : q.toList = []
  · rw [(perform_of_empty hempty).2]
  · obtain ⟨a, rest, hout⟩ := exists_remove? lt hempty
    rw [(perform_of_remove? hout).2]

theorem perm_perform (lt : α → α → Bool) (q : Agenda α) (op : AgendaOperation α) :
    (op.removed (q.perform lt op).1 ++ (q.perform lt op).2.toList).Perm
      (q.toList ++ op.inserted) := by
  cases op with
  | insert a =>
    have hinsert := perm_insert lt q a
    exact hinsert.trans (List.perm_append_singleton a q.toList).symm
  | remove =>
    by_cases hempty : q.toList = []
    · rw [(perform_of_empty hempty).1]
      simp [AgendaOperation.removed, AgendaOperation.inserted]
    · obtain ⟨a, rest, hout⟩ := exists_remove? lt hempty
      rw [(perform_of_remove? hout).1, AgendaOperation.inserted, List.append_nil]
      exact (perm_remove lt hout).symm
  | peek =>
    rw [perform_peek_snd, AgendaOperation.inserted, List.append_nil]
    exact List.Perm.refl _

theorem isHeap_perform (h : StrictWeak lt) {q : Agenda α} (hq : IsHeap lt q)
    (op : AgendaOperation α) : IsHeap lt (q.perform lt op).2 := by
  cases op with
  | insert a => exact isHeap_insert h hq a
  | remove =>
    by_cases hempty : q.toList = []
    · rwa [(perform_of_empty hempty).1]
    · obtain ⟨a, rest, hout⟩ := exists_remove? lt hempty
      rw [(perform_of_remove? hout).1]
      exact isHeap_remove h hq hout
  | peek => rwa [perform_peek_snd]

/-! ## Sequences of operations -/

theorem perm_removedBy (q : Agenda α) (ops : List (AgendaOperation α)) :
    (q.removedBy lt ops ++ (q.after lt ops).toList).Perm
      (q.toList ++ ops.flatMap AgendaOperation.inserted) := by
  induction ops generalizing q with
  | nil =>
    rw [removedBy, after, List.foldl_nil, List.flatMap_nil, List.append_nil, List.nil_append]
  | cons op ops ih =>
    have hfirst := perm_perform lt q op
    have hrest := ih (q.perform lt op).2
    rw [removedBy, List.append_assoc, List.flatMap_cons, ← List.append_assoc q.toList]
    -- what the first operation leaves goes through the rest
    refine (hrest.append_left _).trans ?_
    rw [← List.append_assoc]
    exact hfirst.append_right _

theorem isHeap_after (h : StrictWeak lt) {q : Agenda α} (hq : IsHeap lt q)
    (ops : List (AgendaOperation α)) : IsHeap lt (q.after lt ops) := by
  induction ops generalizing q with
  | nil => exact hq
  | cons op ops ih => exact ih (isHeap_perform h hq op)

/-! ## Sizes and taking out everything -/

theorem size_of_remove? {q rest : Agenda α} {a : α} (hout : q.remove? lt = some (a, rest)) :
    q.size = rest.size + 1 :=
  (perm_remove lt hout).length_eq

theorem size_foldl_insert (lt : α → α → Bool) (as : List α) (q : Agenda α) :
    (as.foldl (fun q a => q.insert lt a) q).size = q.size + as.length := by
  have hlength := (perm_foldl_insert lt as q).length_eq
  rw [List.length_append, Nat.add_comm] at hlength
  exact hlength

theorem perm_drainFrom {n : Nat} {q : Agenda α} (hsize : q.size = n) :
    (q.drainFrom lt n).Perm q.toList := by
  induction n generalizing q with
  | zero =>
    have hnil : q.toList = [] := List.eq_nil_of_length_eq_zero hsize
    rw [drainFrom, hnil]
  | succ n ih =>
    have hne : q.toList ≠ [] := List.ne_nil_of_length_eq_add_one hsize
    obtain ⟨a, rest, hout⟩ := exists_remove? lt hne
    have hperm := perm_remove lt hout
    have hrest : rest.size = n := Nat.succ.inj ((size_of_remove? hout).symm.trans hsize)
    simp only [drainFrom, hout]
    exact ((ih hrest).cons a).trans hperm.symm

theorem perm_drain (lt : α → α → Bool) (q : Agenda α) : (q.drain lt).Perm q.toList :=
  perm_drainFrom rfl

theorem pairwise_drainFrom (h : StrictWeak lt) {n : Nat} {q : Agenda α} (hq : IsHeap lt q)
    (hsize : q.size = n) : (q.drainFrom lt n).Pairwise fun a b => lt b a = false := by
  induction n generalizing q with
  | zero => exact List.Pairwise.nil
  | succ n ih =>
    have hne : q.toList ≠ [] := List.ne_nil_of_length_eq_add_one hsize
    obtain ⟨a, rest, hout⟩ := exists_remove? lt hne
    have hperm := perm_remove lt hout
    have hrest : rest.size = n := Nat.succ.inj ((size_of_remove? hout).symm.trans hsize)
    simp only [drainFrom, hout]
    refine List.pairwise_cons.mpr ⟨fun b hb => ?_, ih (isHeap_remove h hq hout) hrest⟩
    have hmem : b ∈ rest.toList := (perm_drainFrom hrest).mem_iff.mp hb
    exact not_lt_of_remove? h hq hout (hperm.mem_iff.mpr (List.mem_cons_of_mem a hmem))

end Agenda

open Agenda

/-- **Agendas lose nothing and give out the least element.** After any operations on an agenda made
of given elements, over any relation, what was removed and what is held are the given elements and
the inserted ones. An empty agenda refuses to remove and to look at an element and stays as it is;
any other one answers both with the same element, and all its elements come out of it one by one. If
the relation is a strict weak order, no element held is less than the one in the answer, and the
elements come out in order. -/
theorem agenda_conserves_and_orders (lt : α → α → Bool) (as : List α)
    (ops : List (AgendaOperation α)) :
    let q := (ofList lt as).after lt ops
    ((ofList lt as).removedBy lt ops ++ q.toList).Perm
        (as ++ ops.flatMap AgendaOperation.inserted) ∧
      (q.toList = [] → q.perform lt .remove = (.error .nothingToRemove, q) ∧
        q.perform lt .peek = (.error .nothingToPeek, q)) ∧
      (q.toList ≠ [] → ∃ a rest, q.perform lt .remove = (.ok (some a), rest) ∧
        q.perform lt .peek = (.ok (some a), q) ∧
        (StrictWeak lt → ∀ b ∈ q.toList, lt b a = false)) ∧
      (q.drain lt).Perm q.toList ∧
      (StrictWeak lt → (q.drain lt).Pairwise fun a b => lt b a = false) := by
  intro q
  have hheap : StrictWeak lt → IsHeap lt q :=
    fun h => isHeap_after h (isHeap_ofList h as) ops
  refine ⟨?_, perform_of_empty, fun hq => ?_, perm_drain lt q, fun h => ?_⟩
  · exact (perm_removedBy _ ops).trans ((perm_ofList lt as).append_right _)
  · obtain ⟨a, rest, hout⟩ := exists_remove? lt hq
    obtain ⟨hremove, hpeek⟩ := perform_of_remove? hout
    exact ⟨a, rest, hremove, hpeek, fun h b hb => not_lt_of_remove? h (hheap h) hout hb⟩
  · exact pairwise_drainFrom h (hheap h) rfl

end Categorial

import Categorial.Change

/-!
# Agendas

A priority queue as a binary heap in an array: the children of position `i` are at `2i + 1` and
`2i + 2`. The order is an argument and may be any relation; which of several least elements comes
out first is fixed by the moves below.

An element that comes in is lifted from the end towards the root. When the root goes out, the last
element takes its place, sinks along the smaller children to a leaf, and is lifted from there. A
heap is made of a list by doing the same at every inner position, from the last to the root.

* `perm_insert`, `perm_remove`, `perm_ofList`: no operation loses or invents an element.
* `steps`, `perform`: the operations as requests, of which some fail with an empty queue.
-/

namespace Categorial

namespace Heap

variable {α : Type} (lt : α → α → Bool)

/-- Lifts the element at position `i` while it is less than its parent, at most up to `root`. -/
def lift (root : Nat) (a : Array α) (i : Nat) : Array α :=
  if h : root < i ∧ i < a.size then
    if lt a[i] a[(i - 1) / 2] then lift root (a.swap i ((i - 1) / 2)) ((i - 1) / 2) else a
  else a
termination_by i
decreasing_by omega

/-- The position of the smaller child of `i`, which has one: the right child unless there is none
or the left one is less. -/
def smallerChild (a : Array α) (i : Nat) (h : 2 * i + 1 < a.size) : Fin a.size :=
  if h' : 2 * i + 2 < a.size then
    if lt a[2 * i + 1] a[2 * i + 2] then ⟨2 * i + 1, h⟩ else ⟨2 * i + 2, h'⟩
  else ⟨2 * i + 1, h⟩

theorem lt_smallerChild (a : Array α) (i : Nat) (h : 2 * i + 1 < a.size) :
    i < (smallerChild lt a i h).val := by
  unfold smallerChild
  split
  · split <;> simp only <;> omega
  · simp only
    omega

/-- Moves the element at position `i` along the smaller children to a leaf, whose position is
given back. -/
def sink (a : Array α) (i : Nat) : Array α × Nat :=
  if h : 2 * i + 1 < a.size then
    let c := smallerChild lt a i h
    sink (a.swap i c) c
  else (a, i)
termination_by a.size - i
decreasing_by
  have := lt_smallerChild lt a i h
  have := (smallerChild lt a i h).isLt
  simp only [Array.size_swap]
  omega

/-- Brings the element at position `i` to its place among the positions below `i`. -/
def settle (a : Array α) (i : Nat) : Array α :=
  let (a, leaf) := sink lt a i
  lift lt i a leaf

theorem perm_lift (root : Nat) (a : Array α) (i : Nat) : (lift lt root a i).Perm a := by
  fun_induction lift lt root a i with
  | case1 a i h hlt ih => exact ih.trans (Array.swap_perm _ _)
  | case2 => exact .refl _
  | case3 => exact .refl _

theorem perm_sink (a : Array α) (i : Nat) : (sink lt a i).1.Perm a := by
  fun_induction sink lt a i with
  | case1 a i h c ih => exact ih.trans (Array.swap_perm _ _)
  | case2 => exact .refl _

theorem perm_settle (a : Array α) (i : Nat) : (settle lt a i).Perm a :=
  (perm_lift lt i _ _).trans (perm_sink lt a i)

end Heap

/-- The elements of a priority queue, as a heap. -/
structure Agenda (α : Type) where
  heap : Array α

namespace Agenda

variable {α : Type} (lt : α → α → Bool)

/-- The elements in the order of the heap. -/
def toList (q : Agenda α) : List α :=
  q.heap.toList

/-- The number of elements. -/
def size (q : Agenda α) : Nat :=
  q.heap.size

/-- Whether there is no element. -/
def isEmpty (q : Agenda α) : Bool :=
  q.heap.isEmpty

/-- The inner positions of a heap of the given size, from the last to the root. -/
def innerPositions (size : Nat) : List Nat :=
  (List.range (size / 2)).reverse

/-- The queue of the given elements. -/
def ofList (as : List α) : Agenda α :=
  ⟨(innerPositions as.length).foldl (Heap.settle lt) as.toArray⟩

/-- Adds an element. -/
def insert (q : Agenda α) (a : α) : Agenda α :=
  ⟨Heap.lift lt 0 (q.heap.push a) q.heap.size⟩

/-- The least element. -/
def peek? (q : Agenda α) : Option α :=
  q.heap[0]?

/-- The least element, and the queue without it. -/
def remove? (q : Agenda α) : Option (α × Agenda α) :=
  match q.heap.back? with
  | none => none
  | some last =>
    let rest := q.heap.pop
    if h : 0 < rest.size then
      some (rest[0], ⟨Heap.settle lt (rest.set 0 last) 0⟩)
    else some (last, ⟨rest⟩)

/-- All elements as they come out one after the other, at most `n` of them. -/
def drainFrom : Nat → Agenda α → List α
  | 0, _ => []
  | n + 1, q =>
    match q.remove? lt with
    | none => []
    | some (a, q) => a :: drainFrom n q

/-- All elements as they come out one after the other. -/
def drain (q : Agenda α) : List α :=
  drainFrom lt q.size q

/-- The summary of a queue. -/
def summary (q : Agenda α) : String :=
  "Agenda(size=" ++ toString q.size ++ ")"

theorem perm_ofList (as : List α) : (ofList lt as).toList.Perm as := by
  suffices h : ∀ (is : List Nat) (a : Array α), (is.foldl (Heap.settle lt) a).Perm a by
    exact (h _ _).toList
  intro is
  induction is with
  | nil => exact fun a => .refl a
  | cons i is ih => exact fun a => (ih _).trans (Heap.perm_settle lt a i)

theorem perm_insert (q : Agenda α) (a : α) : (q.insert lt a).toList.Perm (a :: q.toList) := by
  refine (Heap.perm_lift lt 0 _ _).toList.trans ?_
  rw [Array.toList_push]
  exact List.perm_append_singleton a q.heap.toList

theorem perm_foldl_insert (as : List α) (q : Agenda α) :
    (as.foldl (fun q a => q.insert lt a) q).toList.Perm (as ++ q.toList) := by
  induction as generalizing q with
  | nil => exact .refl _
  | cons a as ih =>
    have hinsert := perm_insert lt q a
    exact (ih _).trans ((hinsert.append_left as).trans List.perm_middle)

theorem perm_remove {q : Agenda α} {a : α} {rest : Agenda α} (h : q.remove? lt = some (a, rest)) :
    q.toList.Perm (a :: rest.toList) := by
  obtain ⟨⟨xs⟩⟩ := q
  rcases List.eq_nil_or_concat xs with rfl | ⟨ys, last, rfl⟩
  · simp [remove?] at h
  · cases ys with
    | nil =>
      simp [remove?] at h
      obtain ⟨rfl, rfl⟩ := h
      simp [toList]
    | cons y ys =>
      have hlast : (y :: (ys ++ [last])).getLast? = some last := by
        rw [← List.cons_append, List.getLast?_concat]
      have hfront : (y :: (ys ++ [last])).dropLast = y :: ys := by
        rw [← List.cons_append, List.dropLast_concat]
      simp [remove?, hlast, hfront] at h
      obtain ⟨rfl, rfl⟩ := h
      have hs := (Heap.perm_settle lt (last :: ys).toArray 0).toList
      simp only [toList, List.concat_eq_append, List.cons_append]
      refine List.Perm.cons _ ?_
      exact (List.perm_append_singleton last ys).trans hs.symm

end Agenda

/-- What cannot be done with an empty queue. -/
inductive AgendaError
  | nothingToRemove
  | nothingToPeek
  deriving DecidableEq

/-- What is wrong, in words. -/
def AgendaError.message : AgendaError → String
  | nothingToRemove => "remove_min from an empty agenda"
  | nothingToPeek => "peek_min on an empty agenda"

/-- What can be asked of a queue. -/
inductive AgendaOperation (α : Type)
  | insert (a : α)
  | remove
  | peek

namespace Agenda

variable {α : Type} (lt : α → α → Bool)

/-- Takes the least element out. -/
def removeMin : Change AgendaError (Agenda α) α := do
  match (← get).remove? lt with
  | none => throw .nothingToRemove
  | some (a, rest) =>
    set rest
    return a

/-- Looks at the least element. -/
def peekMin : Change AgendaError (Agenda α) α := do
  match (← get).peek? with
  | none => throw .nothingToPeek
  | some a => return a

/-- The steps of an operation, with its answer, which is an element unless one was inserted. -/
def steps : AgendaOperation α → Change AgendaError (Agenda α) (Option α)
  | .insert a => do
    modify (·.insert lt a)
    return none
  | .remove => do return some (← removeMin lt)
  | .peek => do return some (← peekMin)

/-- The answer to an operation, and the queue as it then is, refused or not. -/
def perform (q : Agenda α) (op : AgendaOperation α) :
    Except AgendaError (Option α) × Agenda α :=
  (steps lt op).on q

end Agenda

end Categorial

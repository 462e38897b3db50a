import Categorial.Search.Agenda

/-!
# The order of the heap

When the relation of an agenda is a strict weak order, the moves on the array keep every element at
or behind its parent, so that the element at the root is a least one. An element on its way is a
hole in this order. While it sinks or is lifted, all other pairs stay in order, and its children
stay at or behind its parent (`Around`).

* `Heap.heapFrom_lift`: lifting closes the hole.
* `Heap.heapFrom_settle`: settling a position extends the order to it.
* `Agenda.isHeap_ofList`, `Agenda.isHeap_insert`, `Agenda.isHeap_remove`: every agenda that the
  operations make is in order.
* `Agenda.not_lt_of_remove?`: the element that goes out has no smaller one behind it.
-/

namespace Categorial

/-- The relation is a strict weak order: it is asymmetric, and so is incomparability transitive. -/
structure StrictWeak {α : Type} (lt : α → α → Bool) : Prop where
  asymm : ∀ {a b}, lt a b = true → lt b a = false
  trans : ∀ {a b c}, lt b a = false → lt c b = false → lt c a = false

theorem StrictWeak.irrefl {α : Type} {lt : α → α → Bool} (h : StrictWeak lt) (a : α) :
    lt a a = false := by
  cases haa : lt a a with
  | false => rfl
  | true => exact absurd (h.asymm haa) (by simp [haa])

namespace Heap

variable {α : Type} {lt : α → α → Bool}

/-- What is at the first place is not behind what is at the second one, if there are both. -/
def NotBehind (lt : α → α → Bool) (x y : Option α) : Prop :=
  ∀ a, x = some a → ∀ b, y = some b → lt b a = false

theorem notBehind_none (lt : α → α → Bool) (x : Option α) : NotBehind lt x none := by
  intro a _ b hb
  cases hb

theorem NotBehind.trans (h : StrictWeak lt) {x z : Option α} {b : α}
    (hxy : NotBehind lt x (some b)) (hyz : NotBehind lt (some b) z) : NotBehind lt x z :=
  fun a ha c hc => h.trans (hxy a ha b rfl) (hyz b rfl c hc)

theorem NotBehind.refl (h : StrictWeak lt) (x : Option α) : NotBehind lt x x := by
  intro a ha b hb
  rw [ha] at hb
  cases hb
  exact h.irrefl a

/-- The position above. -/
def up (i : Nat) : Nat :=
  (i - 1) / 2

theorem up_lt {i : Nat} (hi : 0 < i) : up i < i := by
  unfold up
  omega

/-- From the position `root` on, no element is less than the one above it. -/
def HeapFrom (lt : α → α → Bool) (a : Array α) (root : Nat) : Prop :=
  ∀ i, 0 < i → root ≤ up i → NotBehind lt a[up i]? a[i]?

/-- The same for all pairs that do not touch the hole; the hole is skipped over. -/
structure Around (lt : α → α → Bool) (a : Array α) (root hole : Nat) : Prop where
  off : ∀ i, 0 < i → root ≤ up i → i ≠ hole → up i ≠ hole → NotBehind lt a[up i]? a[i]?
  across : root < hole → ∀ i, 0 < i → up i = hole → NotBehind lt a[up hole]? a[i]?

/-- The positions below `root`, itself included. -/
inductive Below (root : Nat) : Nat → Prop
  | refl : Below root root
  | left {i : Nat} (h : Below root i) : Below root (2 * i + 1)
  | right {i : Nat} (h : Below root i) : Below root (2 * i + 2)

theorem Below.le {root i : Nat} (h : Below root i) : root ≤ i := by
  induction h with
  | refl => exact Nat.le_refl _
  | left | right => omega

theorem Below.above {root i : Nat} (h : Below root i) (hlt : root < i) : Below root (up i) := by
  cases h with
  | refl => omega
  | @left i h =>
    have hup : up (2 * i + 1) = i := by
      unfold up
      omega
    rwa [hup]
  | @right i h =>
    have hup : up (2 * i + 2) = i := by
      unfold up
      omega
    rwa [hup]

theorem below_zero (i : Nat) : Below 0 i := by
  induction i using Nat.strongRecOn with
  | ind i ih =>
    by_cases hi : i = 0
    · subst hi
      exact .refl
    · by_cases hodd : i % 2 = 1
      · have h := Below.left (ih ((i - 1) / 2) (by omega))
        rwa [show 2 * ((i - 1) / 2) + 1 = i by omega] at h
      · have h := Below.right (ih ((i - 2) / 2) (by omega))
        rwa [show 2 * ((i - 2) / 2) + 2 = i by omega] at h

theorem notBehind_of_size_le {a : Array α} {i : Nat} (hi : a.size ≤ i) (x : Option α) :
    NotBehind lt x a[i]? := by
  rw [Array.getElem?_eq_none hi]
  exact notBehind_none lt x

theorem getElem?_swap_left {a : Array α} {i j : Nat} (hi : i < a.size) (hj : j < a.size)
    (hij : i ≠ j) : (a.swap i j hi hj)[i]? = a[j]? := by
  rw [Array.getElem?_swap, if_neg (Ne.symm hij), if_pos rfl, Array.getElem?_eq_getElem hj]

theorem getElem?_swap_right {a : Array α} {i j : Nat} (hi : i < a.size) (hj : j < a.size) :
    (a.swap i j hi hj)[j]? = a[i]? := by
  rw [Array.getElem?_swap, if_pos rfl, Array.getElem?_eq_getElem hi]

theorem getElem?_swap_of_ne {a : Array α} {i j k : Nat} (hi : i < a.size) (hj : j < a.size)
    (hki : k ≠ i) (hkj : k ≠ j) : (a.swap i j hi hj)[k]? = a[k]? := by
  rw [Array.getElem?_swap, if_neg (Ne.symm hkj), if_neg (Ne.symm hki)]

/-! ## Lifting -/

/-- Around the hole, and the element in it is not behind its children. -/
structure Liftable (lt : α → α → Bool) (a : Array α) (root hole : Nat) : Prop
    extends Around lt a root hole where
  under : ∀ i, 0 < i → up i = hole → NotBehind lt a[hole]? a[i]?

theorem Around.sibling {a : Array α} {root i k : Nat} (ha : Around lt a root i) (hi : 0 < i)
    (hroot : root ≤ up i) (hk : 0 < k) (hup : up k = up i) (hne : k ≠ i) :
    NotBehind lt a[up i]? a[k]? := by
  have hlt := up_lt hi
  have hpair := ha.off k hk (by omega) hne (by omega)
  rwa [hup] at hpair

theorem Around.grandparent {a : Array α} {root i : Nat} (ha : Around lt a root i) (hi : root < i)
    (hroot : Below root (up i)) (hlt : root < up i) : NotBehind lt a[up (up i)]? a[up i]? := by
  have hup : up i < i := up_lt (by omega)
  have hgrand : up (up i) < up i := up_lt (by omega)
  exact ha.off (up i) (by omega) (hroot.above hlt).le (by omega) (by omega)

/-- The hole moves to the parent. -/
theorem around_swap_up (h : StrictWeak lt) {a : Array α} {root i : Nat} (hi : root < i)
    (hsize : i < a.size) (hp : up i < a.size) (ha : Around lt a root i)
    (hroot : Below root (up i)) : Around lt (a.swap i (up i)) root (up i) := by
  have hup : up i < i := up_lt (by omega)
  have hle := hroot.le
  have hparent : a[up i]? = some a[up i] := Array.getElem?_eq_getElem hp
  have hhole := getElem?_swap_left hsize hp (by omega)
  constructor
  · intro k hk hupk hne hupne
    have hki : k ≠ i := fun hki => hupne (congrArg up hki)
    rw [getElem?_swap_of_ne hsize hp hki hne]
    by_cases hupi : up k = i
    · rw [hupi, hhole]
      exact ha.across hi k hk hupi
    · rw [getElem?_swap_of_ne hsize hp hupi hupne]
      exact ha.off k hk hupk hki hupi
  · intro hlt k hk hupk
    have hgrand : up (up i) < up i := up_lt (by omega)
    have habove := ha.grandparent hi hroot hlt
    rw [getElem?_swap_of_ne hsize hp (by omega) (by omega)]
    by_cases hki : k = i
    · rw [hki, hhole]
      exact habove
    · have hku := up_lt hk
      have hsibling := ha.sibling (by omega) hle hk hupk hki
      rw [getElem?_swap_of_ne hsize hp hki (by omega)]
      rw [hparent] at habove hsibling
      exact habove.trans h hsibling

/-- An element that is less than its parent changes places with it. -/
theorem liftable_swap (h : StrictWeak lt) {a : Array α} {root i : Nat} (hi : root < i)
    (hsize : i < a.size) (hp : up i < a.size) (ha : Around lt a root i)
    (hroot : Below root (up i)) (hlt : lt a[i] a[up i] = true) :
    Liftable lt (a.swap i (up i)) root (up i) := by
  have hup : up i < i := up_lt (by omega)
  have hparent : a[up i]? = some a[up i] := Array.getElem?_eq_getElem hp
  have hless : NotBehind lt a[i]? (some a[up i]) := by
    intro x hx y hy
    rw [Array.getElem?_eq_getElem hsize] at hx
    cases hx
    cases hy
    exact h.asymm hlt
  refine ⟨around_swap_up h hi hsize hp ha hroot, ?_⟩
  intro k hk hupk
  rw [getElem?_swap_right hsize hp]
  by_cases hki : k = i
  · rw [hki, getElem?_swap_left hsize hp (by omega), hparent]
    exact hless
  · have hku := up_lt hk
    have hsibling := ha.sibling (by omega) hroot.le hk hupk hki
    rw [getElem?_swap_of_ne hsize hp hki (by omega)]
    rw [hparent] at hsibling
    exact hless.trans h hsibling

/-- A hole whose element is not less than its parent is none. -/
theorem heapFrom_of_liftable {a : Array α} {root i : Nat} (ha : Liftable lt a root i)
    (hstop : root < i → NotBehind lt a[up i]? a[i]?) (hroot : root ≤ i) :
    HeapFrom lt a root := by
  intro k hk hupk
  by_cases hki : k = i
  · subst hki
    exact hstop (by unfold up at hupk; omega)
  · by_cases hupi : up k = i
    · rw [hupi]
      exact ha.under k hk hupi
    · exact ha.off k hk hupk hki hupi

theorem heapFrom_lift (h : StrictWeak lt) {a : Array α} {root i : Nat} (hbelow : Below root i)
    (ha : Liftable lt a root i) : HeapFrom lt (lift lt root a i) root := by
  fun_induction lift lt root a i with
  | case1 a i hi hlt ih =>
    have hup := hbelow.above hi.1
    exact ih hup (liftable_swap h hi.1 hi.2 (by unfold up; omega) ha.toAround hup hlt)
  | case2 a i hi hlt =>
    refine heapFrom_of_liftable ha (fun _ x hx y hy => ?_) hbelow.le
    have hx' : a[up i]? = some a[(i - 1) / 2] := by
      unfold up
      exact Array.getElem?_eq_getElem (by omega)
    have hy' : a[i]? = some a[i] := Array.getElem?_eq_getElem hi.2
    rw [hx'] at hx
    rw [hy'] at hy
    cases hx
    cases hy
    simpa using hlt
  | case3 a i hi =>
    exact heapFrom_of_liftable ha (fun hlt => notBehind_of_size_le (by omega) _) hbelow.le

/-! ## Sinking -/

theorem smallerChild_eq (lt : α → α → Bool) (a : Array α) (i : Nat) (hi : 2 * i + 1 < a.size) :
    (smallerChild lt a i hi).val = 2 * i + 1 ∨ (smallerChild lt a i hi).val = 2 * i + 2 := by
  unfold smallerChild
  split
  · split
    · exact .inl rfl
    · exact .inr rfl
  · exact .inl rfl

theorem up_smallerChild (a : Array α) (i : Nat) (hi : 2 * i + 1 < a.size) :
    up (smallerChild lt a i hi).val = i := by
  have := smallerChild_eq lt a i hi
  unfold up
  omega

/-- The smaller child is not behind the other one. -/
theorem notBehind_smallerChild (h : StrictWeak lt) (a : Array α) (i : Nat)
    (hi : 2 * i + 1 < a.size) {k : Nat} (hk : 0 < k) (hup : up k = i) :
    NotBehind lt a[(smallerChild lt a i hi).val]? a[k]? := by
  have hk' : k = 2 * i + 1 ∨ k = 2 * i + 2 := by
    unfold up at hup
    omega
  unfold smallerChild
  split
  · next hright =>
    have hleft? : a[2 * i + 1]? = some a[2 * i + 1] := Array.getElem?_eq_getElem hi
    have hright? : a[2 * i + 2]? = some a[2 * i + 2] := Array.getElem?_eq_getElem hright
    split
    · next hlt =>
      rcases hk' with rfl | rfl
      · exact .refl h _
      · intro x hx y hy
        simp only [hleft?, hright?] at hx hy
        cases hx
        cases hy
        exact h.asymm hlt
    · next hlt =>
      rcases hk' with rfl | rfl
      · intro x hx y hy
        simp only [hleft?, hright?] at hx hy
        cases hx
        cases hy
        simpa using hlt
      · exact .refl h _
  · rcases hk' with rfl | rfl
    · exact .refl h _
    · exact notBehind_of_size_le (by omega) _

/-- The hole moves to the child that is not behind the other one. -/
theorem around_swap {a : Array α} {root i c : Nat} (hroot : root ≤ i) (hi : i < a.size)
    (hc : c < a.size) (hic : i < c) (hupc : up c = i)
    (hmin : ∀ k, 0 < k → up k = i → NotBehind lt a[c]? a[k]?) (ha : Around lt a root i) :
    Around lt (a.swap i c) root c := by
  have hhole := getElem?_swap_left hi hc (by omega)
  constructor
  · intro k hk hupk hne hupne
    have hku := up_lt hk
    by_cases hki : k = i
    · subst hki
      rw [hhole, getElem?_swap_of_ne hi hc (by omega) hupne]
      exact ha.across (by omega) c (by omega) hupc
    · rw [getElem?_swap_of_ne hi hc hki hne]
      by_cases hupi : up k = i
      · rw [hupi, hhole]
        exact hmin k hk hupi
      · rw [getElem?_swap_of_ne hi hc hupi hupne]
        exact ha.off k hk hupk hki hupi
  · intro _ k hk hupk
    have hku := up_lt hk
    rw [hupc, hhole, getElem?_swap_of_ne hi hc (by omega) (by omega), ← hupk]
    exact ha.off k hk (by omega) (by omega) (by omega)

theorem around_sink (h : StrictWeak lt) {a : Array α} {root i : Nat} (hbelow : Below root i)
    (ha : Around lt a root i) :
    Liftable lt (sink lt a i).1 root (sink lt a i).2 ∧ Below root (sink lt a i).2 := by
  fun_induction sink lt a i with
  | case1 a i hi c ih =>
    have hmin := fun k hk hup => notBehind_smallerChild h a i hi (k := k) hk hup
    refine ih ?_ (around_swap hbelow.le (by omega) c.isLt (lt_smallerChild lt a i hi)
      (up_smallerChild a i hi) hmin ha)
    rcases smallerChild_eq lt a i hi with hc | hc
    · exact hc ▸ hbelow.left
    · exact hc ▸ hbelow.right
  | case2 a i hi =>
    refine ⟨⟨ha, fun k hk hup => notBehind_of_size_le ?_ _⟩, hbelow⟩
    simp only at hup ⊢
    unfold up at hup
    omega

theorem heapFrom_settle (h : StrictWeak lt) {a : Array α} {i : Nat} (ha : Around lt a i i) :
    HeapFrom lt (settle lt a i) i := by
  obtain ⟨hlift, hbelow⟩ := around_sink h .refl ha
  exact heapFrom_lift h hbelow hlift

/-- Settling a position extends the order to it. -/
theorem heapFrom_settle_of_succ (h : StrictWeak lt) {a : Array α} {i : Nat}
    (ha : HeapFrom lt a (i + 1)) : HeapFrom lt (settle lt a i) i := by
  refine heapFrom_settle h ⟨fun k hk hupk _ hne => ha k hk (by omega), fun hlt => ?_⟩
  omega

theorem not_lt_root (h : StrictWeak lt) {a : Array α} (ha : HeapFrom lt a 0) {x : α}
    (hx : a[0]? = some x) {i : Nat} {y : α} (hy : a[i]? = some y) : lt y x = false := by
  induction i using Nat.strongRecOn generalizing y with
  | ind i ih =>
    by_cases hi : i = 0
    · subst hi
      rw [hx] at hy
      cases hy
      exact h.irrefl x
    · have hup : up i < i := up_lt (by omega)
      have hsize : i < a.size := (Array.getElem?_eq_some_iff.mp hy).1
      have hparent : a[up i]? = some a[up i] := Array.getElem?_eq_getElem (by omega)
      exact h.trans (ih (up i) hup hparent) (ha i (by omega) (Nat.zero_le _) _ hparent _ hy)

end Heap

namespace Agenda

open Heap

variable {α : Type} {lt : α → α → Bool}

/-- No element of the agenda is less than the one above it. -/
def IsHeap (lt : α → α → Bool) (q : Agenda α) : Prop :=
  HeapFrom lt q.heap 0

theorem isHeap_ofList (h : StrictWeak lt) (as : List α) : IsHeap lt (ofList lt as) := by
  suffices hfold : ∀ (n : Nat) (a : Array α), HeapFrom lt a n →
      HeapFrom lt ((innerPositions (2 * n)).foldl (settle lt) a) 0 by
    have hinner : innerPositions as.length = innerPositions (2 * (as.length / 2)) := by
      unfold innerPositions
      congr 2
      omega
    unfold IsHeap ofList
    rw [hinner]
    refine hfold (as.length / 2) as.toArray fun i hi hup => notBehind_of_size_le ?_ _
    unfold up at hup
    rw [List.size_toArray]
    omega
  intro n
  induction n with
  | zero => exact fun a ha => ha
  | succ n ih =>
    intro a ha
    have hinner : innerPositions (2 * (n + 1)) = n :: innerPositions (2 * n) := by
      unfold innerPositions
      rw [Nat.mul_div_cancel_left _ (by omega), Nat.mul_div_cancel_left _ (by omega),
        List.range_succ, List.reverse_append]
      rfl
    rw [hinner, List.foldl_cons]
    exact ih _ (heapFrom_settle_of_succ h ha)

theorem isHeap_insert (h : StrictWeak lt) {q : Agenda α} (hq : IsHeap lt q) (a : α) :
    IsHeap lt (q.insert lt a) := by
  have hfar : ∀ {i}, 0 < i → up i = q.heap.size → (q.heap.push a).size ≤ i := by
    intro i hi hup
    unfold up at hup
    rw [Array.size_push]
    omega
  refine heapFrom_lift h (below_zero _) ⟨⟨fun i hi _ hne hupne => ?_, fun _ i hi hup => ?_⟩,
    fun i hi hup => ?_⟩
  · by_cases hsize : i < q.heap.size
    · rw [Array.getElem?_push, Array.getElem?_push, if_neg hne, if_neg hupne]
      exact hq i hi (Nat.zero_le _)
    · refine notBehind_of_size_le ?_ _
      rw [Array.size_push]
      omega
  · exact notBehind_of_size_le (hfar hi hup) _
  · exact notBehind_of_size_le (hfar hi hup) _

theorem isHeap_remove (h : StrictWeak lt) {q rest : Agenda α} {x : α} (hq : IsHeap lt q)
    (hout : q.remove? lt = some (x, rest)) : IsHeap lt rest := by
  unfold remove? at hout
  cases hback : q.heap.back? with
  | none => simp [hback] at hout
  | some last =>
    simp only [hback] at hout
    split at hout
    · next hsize =>
      obtain ⟨-, rfl⟩ := Prod.mk.inj (Option.some.inj hout)
      -- all pairs but those at the root are pairs of the old heap
      refine heapFrom_settle h ⟨fun i hi hup hne hupne => ?_, fun hlt => absurd hlt (by omega)⟩
      by_cases hlast : i < q.heap.size - 1
      · have hup' : up i < q.heap.size - 1 := Nat.lt_trans (up_lt hi) hlast
        rw [Array.getElem?_set_ne _ (Ne.symm hne), Array.getElem?_set_ne _ (Ne.symm hupne),
          Array.getElem?_pop, Array.getElem?_pop, if_pos hlast, if_pos hup']
        exact hq i hi hup
      · refine notBehind_of_size_le ?_ _
        rw [Array.size_set, Array.size_pop]
        omega
    · next hsize =>
      obtain ⟨-, rfl⟩ := Prod.mk.inj (Option.some.inj hout)
      refine fun i _ _ => notBehind_of_size_le ?_ _
      simp only
      omega

/-- What goes out is the element at the root. -/
theorem getElem?_zero_of_remove? {q rest : Agenda α} {x : α}
    (hout : q.remove? lt = some (x, rest)) : q.heap[0]? = some x := by
  unfold remove? at hout
  cases hback : q.heap.back? with
  | none => simp [hback] at hout
  | some last =>
    simp only [hback] at hout
    split at hout
    · next hsize =>
      obtain ⟨rfl, -⟩ := Prod.mk.inj (Option.some.inj hout)
      rw [Array.size_pop] at hsize
      rw [Array.getElem_pop, Array.getElem?_eq_getElem]
    · next hsize =>
      obtain ⟨rfl, -⟩ := Prod.mk.inj (Option.some.inj hout)
      rw [Array.size_pop] at hsize
      rw [Array.back?_eq_getElem?] at hback
      have hone : q.heap.size - 1 = 0 := by omega
      rwa [hone] at hback

/-- No element of the agenda is less than the one that goes out. -/
theorem not_lt_of_remove? (h : StrictWeak lt) {q rest : Agenda α} {x y : α} (hq : IsHeap lt q)
    (hout : q.remove? lt = some (x, rest)) (hy : y ∈ q.toList) : lt y x = false := by
  obtain ⟨i, hi⟩ := List.mem_iff_getElem?.mp hy
  rw [toList, Array.getElem?_toList] at hi
  exact not_lt_root h hq (getElem?_zero_of_remove? hout) hi

end Agenda

end Categorial

import Mathlib.Data.List.Basic
import Categorial.Category.Printer
import Categorial.Ordered.Distinct
import Categorial.Proofs.Grammar.Cache

/-!
# Shared entries

A cache that starts without entries has one for each pair of categories that was looked up, and
numbers them in the order in which they came in. So the number of an entry is the place of its pair
among the distinct pairs of the sequence, and all that can be seen of a sequence of look-ups is
determined by the pairs: a look-up finds the entry of the first earlier one with the same pair, and
no look-up finds that of another pair, however much alike the two are written.

* `Cache.Remembers`: the cache that a sequence of look-ups leaves behind.
* `Cache.remembers_lookup`: what one look-up finds and leaves behind.
* `Cache.getElem?_trace`: a whole sequence.
* `Cache.source_eq`: a look-up finds what the first one with its pair found.
* `equal_pairs_share_entries`: all this in terms of the sequence of pairs.
-/

namespace Categorial

namespace Cache

variable {done pairs : List (Category × Category)} {c : Cache} {p : Category × Category}

/-! ## The numbers of the entries -/

/-- The place of a pair among the distinct pairs of a sequence; for a pair that is none of them, the
place behind the last. -/
def serial (done : List (Category × Category)) (p : Category × Category) : Nat :=
  done.eraseDups.idxOf p

theorem serial_of_notMem (hp : p ∉ done) : serial done p = done.eraseDups.length :=
  List.idxOf_of_notMem (by rwa [List.mem_eraseDups])

/-- A pair that comes behind changes no number. -/
theorem serial_concat (hp : p ∈ done) (q : Category × Category) :
    serial (done ++ [q]) p = serial done p := by
  rw [serial, Distinct.eraseDups_concat]
  split
  · rfl
  · exact List.idxOf_append_of_mem (List.mem_eraseDups.mpr hp)

theorem serial_concat_self (done : List (Category × Category)) (p : Category × Category) :
    serial (done ++ [p]) p = serial done p := by
  by_cases hp : p ∈ done
  · exact serial_concat hp p
  · rw [serial_of_notMem hp, serial, Distinct.eraseDups_concat, if_neg hp,
      List.idxOf_append_of_notMem (by rwa [List.mem_eraseDups]), List.idxOf_cons_self,
      Nat.add_zero]

theorem map_serial_concat (done : List (Category × Category)) (p : Category × Category) :
    (done ++ [p]).map (serial (done ++ [p])) = done.map (serial done) ++ [serial done p] := by
  rw [List.map_append, List.map_singleton, serial_concat_self]
  congr 1
  exact List.map_congr_left fun q hq => serial_concat hq p

/-- Numbers are looked for as the pairs are. -/
theorem findIdx?_map_serial (done : List (Category × Category)) (p : Category × Category) :
    (done.map (serial done)).findIdx? (· == serial done p) = done.findIdx? (· == p) := by
  have hsame : ∀ q ∈ done, (serial done q == serial done p) = (q == p) := by
    intro q hq
    rw [Bool.eq_iff_iff, beq_iff_eq, beq_iff_eq, serial, serial]
    exact List.idxOf_inj (List.mem_eraseDups.mpr hq)
  rw [List.findIdx?_map]
  revert hsame
  generalize serial done = number
  induction done with
  | nil => exact fun _ => rfl
  | cons q done ih =>
    intro hsame
    rw [List.findIdx?_cons, List.findIdx?_cons, Function.comp_apply, hsame q List.mem_cons_self,
      ih fun q' hq' => hsame q' (List.mem_cons_of_mem _ hq')]

/-! ## One look-up -/

/-- The cache has an entry for each pair of a sequence, with its number and its inferences, and no
other entry. -/
structure Remembers (c : Cache) (done : List (Category × Category)) : Prop where
  size_eq : c.size = done.eraseDups.length
  entry : ∀ p : Category × Category, c.entries[p]? =
    if p ∈ done then some (serial done p, inferences p.1 p.2) else none

theorem remembers_empty : Remembers empty [] := by
  refine ⟨Std.HashMap.size_empty, fun p => ?_⟩
  simp [empty]

theorem remembers_lookup (h : Remembers c done) (x y : Category) :
    (c.lookup x y).1 = (serial done (x, y), inferences x y) ∧
      Remembers (c.lookup x y).2 (done ++ [(x, y)]) := by
  unfold lookup
  rw [h.entry]
  by_cases hp : (x, y) ∈ done
  · -- the pair has come before, and the cache stays as it is
    rw [if_pos hp]
    refine ⟨rfl, ?_, fun q => ?_⟩
    · rw [Distinct.eraseDups_concat, if_pos hp]
      exact h.size_eq
    · rw [h.entry]
      by_cases hq : q ∈ done
      · rw [if_pos hq, if_pos (List.mem_append_left _ hq), serial_concat hq]
      · have hne : q ≠ (x, y) := fun heq => hq (heq ▸ hp)
        rw [if_neg hq, if_neg (by simpa using ⟨hq, hne⟩)]
  · rw [if_neg hp]
    have hnew : (x, y) ∉ c.entries := by
      rw [← Std.HashMap.isSome_getElem?_iff_mem, h.entry, if_neg hp]
      exact Bool.false_ne_true
    refine ⟨?_, ?_, fun q => ?_⟩
    · rw [serial_of_notMem hp, ← h.size_eq]
    · rw [Distinct.eraseDups_concat, if_neg hp, List.length_append, ← h.size_eq]
      exact Std.HashMap.size_insert.trans (if_neg hnew)
    · rw [Std.HashMap.getElem?_insert]
      by_cases hq : (x, y) = q
      · subst hq
        rw [if_pos (beq_self_eq_true _), if_pos (List.mem_append_right _ List.mem_cons_self),
          serial_concat_self, serial_of_notMem hp, ← h.size_eq]
      · rw [if_neg (by simpa using hq), h.entry]
        by_cases hmem : q ∈ done
        · rw [if_pos hmem, if_pos (List.mem_append_left _ hmem), serial_concat hmem]
        · rw [if_neg hmem, if_neg (by simpa using ⟨hmem, Ne.symm hq⟩)]

/-! ## Sequences of look-ups -/

theorem length_traceFrom (c : Cache) (serials : List Nat) (pairs : List (Category × Category)) :
    (traceFrom c serials pairs).length = pairs.length := by
  induction pairs generalizing c serials with
  | nil => rfl
  | cons p pairs ih => exact congrArg (· + 1) (ih _ _)

/-- What is seen of the look-up of a pair behind those of a sequence. -/
def stepBehind (done : List (Category × Category)) (p : Category × Category) : Step :=
  ⟨inferences p.1 p.2, done.findIdx? (· == p), (done ++ [p]).eraseDups.length⟩

theorem traceFrom_cons (h : Remembers c done) (x y : Category) :
    traceFrom c (done.map (serial done)) ((x, y) :: pairs) =
      stepBehind done (x, y) ::
        traceFrom (c.lookup x y).2 ((done ++ [(x, y)]).map (serial (done ++ [(x, y)]))) pairs := by
  obtain ⟨hfound, hleft⟩ := remembers_lookup h x y
  have hstep : traceFrom c (done.map (serial done)) ((x, y) :: pairs) =
      ⟨(c.lookup x y).1.2, (done.map (serial done)).findIdx? (· == (c.lookup x y).1.1),
        (c.lookup x y).2.size⟩ ::
        traceFrom (c.lookup x y).2 (done.map (serial done) ++ [(c.lookup x y).1.1]) pairs := rfl
  rw [hstep, hfound, map_serial_concat, stepBehind, ← hleft.size_eq, findIdx?_map_serial]

theorem getElem?_traceFrom (h : Remembers c done) (k : Nat) :
    (traceFrom c (done.map (serial done)) pairs)[k]? =
      pairs[k]?.map (stepBehind (done ++ pairs.take k)) := by
  induction pairs generalizing c done k with
  | nil => rfl
  | cons p pairs ih =>
    rw [traceFrom_cons h]
    cases k with
    | zero => simp
    | succ k =>
      rw [List.getElem?_cons_succ, ih (remembers_lookup h p.1 p.2).2, List.getElem?_cons_succ,
        List.take_succ_cons, List.append_assoc, List.singleton_append]

theorem getElem?_trace (pairs : List (Category × Category)) (k : Nat) :
    (trace pairs)[k]? = pairs[k]?.map (stepBehind (pairs.take k)) :=
  getElem?_traceFrom remembers_empty k

/-- The first look-up of a sequence that found the list which a given one finds. -/
def source (pairs : List (Category × Category)) (k : Nat) : Nat :=
  ((trace pairs)[k]?.bind (·.sameAs)).getD k

theorem source_eq {k : Nat} (hp : pairs[k]? = some p) : source pairs k = pairs.idxOf p := by
  obtain ⟨hk, hget⟩ := List.getElem?_eq_some_iff.mp hp
  have hsplit : pairs = pairs.take k ++ p :: pairs.drop (k + 1) := by
    rw [← hget, List.getElem_cons_drop, List.take_append_drop]
  have hlength : (pairs.take k).length = k := List.length_take_of_le (Nat.le_of_lt hk)
  have hsource : source pairs k = (pairs.take k).idxOf p := by
    rw [source, getElem?_trace, hp]
    calc ((pairs.take k).findIdx? (· == p)).getD k
        = ((pairs.take k).findIdx? (· == p)).getD (pairs.take k).length := by rw [hlength]
      _ = (pairs.take k).idxOf p := List.findIdx_eq_getD_findIdx?.symm
  rw [hsource]
  by_cases hmem : p ∈ pairs.take k
  · conv_rhs => rw [hsplit]
    rw [List.idxOf_append_of_mem hmem]
  · conv_rhs => rw [hsplit]
    rw [List.idxOf_append_of_notMem hmem, List.idxOf_cons_self, List.idxOf_of_notMem hmem,
      Nat.add_zero]

theorem source_eq_iff {q : Category × Category} {i j : Nat} (hp : pairs[i]? = some p)
    (hq : pairs[j]? = some q) : source pairs i = source pairs j ↔ p = q := by
  rw [source_eq hp, source_eq hq]
  exact List.idxOf_inj (List.mem_of_getElem? hp)

end Cache

open Cache Category

/-- **Equal pairs share an entry, and no others do.** In a sequence of look-ups that starts with an
empty cache, each look-up gives what the binary rules make of its pair; the list it gives is that of
the first earlier look-up of the same pair, and a new one if there is none; and afterwards the cache
has as many entries as there were different pairs. Two look-ups give one list exactly if their pairs
are equal. So pairs of categories that are only written alike are kept apart, and so are the two
orders of two different categories. -/
theorem equal_pairs_share_entries (pairs : List (Category × Category)) :
    (trace pairs).length = pairs.length ∧
      (∀ k p, pairs[k]? = some p → ∃ step, (trace pairs)[k]? = some step ∧
        step.results = inferences p.1 p.2 ∧
        step.sameAs = (pairs.take k).findIdx? (· == p) ∧
        step.size = (pairs.take (k + 1)).eraseDups.length) ∧
      (∀ i j p q, pairs[i]? = some p → pairs[j]? = some q →
        (source pairs i = source pairs j ↔ p = q)) ∧
      (∀ i j x y x' y', pairs[i]? = some (x, y) → pairs[j]? = some (x', y') →
        x.render = x'.render → y.render = y'.render → x ≠ x' ∨ y ≠ y' →
          source pairs i ≠ source pairs j) ∧
      ∀ i j x y, pairs[i]? = some (x, y) → pairs[j]? = some (y, x) → x ≠ y →
        source pairs i ≠ source pairs j := by
  refine ⟨length_traceFrom _ _ _, fun k p hp => ?_, fun i j p q hp hq => source_eq_iff hp hq,
    ?_, ?_⟩
  · obtain ⟨hk, rfl⟩ := List.getElem?_eq_some_iff.mp hp
    refine ⟨stepBehind (pairs.take k) pairs[k], ?_, rfl, rfl, ?_⟩
    · rw [getElem?_trace, hp]
      rfl
    · rw [stepBehind, List.take_append_getElem]
  · intro i j x y x' y' hi hj _ _ hne hsource
    obtain ⟨hx, hy⟩ := Prod.mk.inj ((source_eq_iff hi hj).mp hsource)
    exact hne.elim (fun h => h hx) fun h => h hy
  · intro i j x y hi hj hne hsource
    exact hne (Prod.mk.inj ((source_eq_iff hi hj).mp hsource)).1

/-- A verb with a bare infinitive, the same verb with a subjunctive, and the first one again in the
other order and in the same one. -/
theorem equal_pairs_share_entries_subjunctive :
    let x := backward (atom (.clause .bareInfinitive)) np
    let x' := backward (atom (.clause .subjunctive)) np
    let pairs := [(np, x), (np, x'), (x, np), (np, x)]
    x.render = x'.render ∧ x ≠ x' ∧ source pairs 0 ≠ source pairs 1 ∧
      np ≠ x ∧ source pairs 0 ≠ source pairs 2 ∧ source pairs 3 = source pairs 0 ∧
      ∃ step, (trace pairs)[3]? = some step ∧
        step.results = [⟨atom (.clause .bareInfinitive), .backwardApply⟩] ∧
        step.sameAs = some 0 ∧ step.size = 3 := by
  intro x x' pairs
  obtain ⟨-, hsteps, hshared, halike, horder⟩ := equal_pairs_share_entries pairs
  have hrender : x.render = x'.render := rfl
  have hne : x ≠ x' := by decide
  have hnp : np ≠ x := by decide
  obtain ⟨step, hstep, hresults, hsame, hsize⟩ := hsteps 3 (np, x) rfl
  exact ⟨hrender, hne, halike 0 1 np x np x' rfl rfl rfl hrender (.inr hne), hnp,
    horder 0 2 np x rfl rfl hnp, (hshared 3 0 (np, x) (np, x) rfl rfl).mpr rfl,
    step, hstep, hresults.trans (by decide), hsame.trans (by decide), hsize.trans (by decide)⟩

end Categorial

import Mathlib.Algebra.GroupWithZero.Nat
import Categorial.Proofs.Chart.Filling

/-!
# Sequences of operations on a chart

A chart of any size answers as a table would that remembers for each pair of places all derivations
that were ever added there: a cell holds them in the order of first addition, each once. Whatever
the table underneath, the number of derivations is that of all cells together, so an addition
counts what is new to its cell.

* `ChartOperation`, `Chart.perform`: the operations as requests with an answer or a refusal.
* `Chart.count_insertAll`: how the number of derivations grows.
* `Chart.cellSet_perform`, `Chart.cellSet_after`: one operation, and a sequence of operations.
* `chart_remembers_additions`: what a chart holds, and how it answers.
-/

namespace Categorial

/-- What can be asked of a chart. -/
inductive ChartOperation
  | add (start stop : Int) (ds : List Derivation)
  | get (start stop : Int)
  | root
  | count

/-- What a chart answers. -/
inductive ChartAnswer
  | number (n : Nat)
  | derivations (ds : List Derivation)

/-- What an operation adds at the given places. -/
def ChartOperation.added (i j : Int) : ChartOperation → List Derivation
  | add start stop ds => if start = i ∧ stop = j then ds else []
  | get .. | root | count => []

namespace Chart

/-- The steps of an operation, with its answer. -/
def steps : ChartOperation → Change SpanError Chart ChartAnswer
  | .add start stop ds => do return .number (← add start stop ds)
  | .get start stop => do return .derivations (← (← getThe Chart).get start stop)
  | .root => do return .derivations (← (← getThe Chart).root)
  | .count => do return .number (← getThe Chart).count

/-- The answer to an operation, and the chart as it then is, refused or not. -/
def perform (c : Chart) (op : ChartOperation) : Except SpanError ChartAnswer × Chart :=
  (steps op).on c

/-- The chart after a sequence of operations. -/
def after (c : Chart) (ops : List ChartOperation) : Chart :=
  ops.foldl (fun c op => (c.perform op).2) c

/-- A chart of the given size has a cell at the given places. -/
def HasSpan (size i j : Int) : Prop :=
  0 ≤ i ∧ i < j ∧ j ≤ size

instance (size i j : Int) : Decidable (HasSpan size i j) :=
  inferInstanceAs (Decidable (_ ∧ _ ∧ _))

/-! ## The number of derivations -/

/-- The number of derivations in the cells other than the given one. -/
def countOthers (c : Chart) (span : Span) : Nat :=
  ((c.cells.toList.filter fun p => !span == p.1).map fun p => p.2.size).sum

theorem count_eq_sum (c : Chart) : c.count = (c.cells.toList.map fun p => p.2.size).sum := by
  rw [count, Std.HashMap.fold_eq_foldl_toList, List.sum_eq_foldl, List.foldl_map]

theorem sum_insert (c : Chart) (span : Span) (cell : OrderedSet Derivation) :
    ((c.cells.insert span cell).toList.map fun p => p.2.size).sum =
      cell.size + c.countOthers span := by
  have hperm := (Std.HashMap.toList_insert_perm (m := c.cells) (k := span) (v := cell)).map
    fun p => p.2.size
  rw [hperm.sum_nat, List.map_cons, List.sum_cons, countOthers]
  simp only [decide_not, Bool.decide_eq_true]

theorem count_insertAll (c : Chart) (span : Span) (ds : List Derivation) :
    (c.insertAll span ds).count = ((c.cellSet span).insertAll ds).size + c.countOthers span := by
  rw [count_eq_sum, insertAll, sum_insert]

/-- A cell that was never filled is empty, and any other one can be put where it is. -/
theorem count_eq_size_add (c : Chart) (span : Span) :
    c.count = (c.cellSet span).size + c.countOthers span := by
  rw [count_eq_sum, cellSet, Std.HashMap.getD_eq_getD_getElem?]
  cases hcell : c.cells[span]? with
  | none =>
    have hall : c.cells.toList.filter (fun p => !span == p.1) = c.cells.toList := by
      refine List.filter_eq_self.mpr fun p hp => ?_
      have hp := Std.HashMap.mem_toList_iff_getElem?_eq_some.mp hp
      have hne : span ≠ p.1 := by
        rintro rfl
        rw [hcell] at hp
        cases hp
      simpa using hne
    rw [countOthers, hall, Option.getD_none]
    exact (Nat.zero_add _).symm
  | some cell =>
    have hsame : (c.cells.insert span cell).Equiv c.cells := by
      refine .of_forall_getElem?_eq fun other => ?_
      rw [Std.HashMap.getElem?_insert]
      split
      · next heq => rw [← eq_of_beq heq, hcell]
      · rfl
    rw [← (hsame.toList_perm.map fun p => p.2.size).sum_nat, sum_insert, Option.getD_some]

/-- The number of derivations grows by those that are new to the cell. -/
theorem count_insertAll_eq_add (c : Chart) (span : Span) (ds : List Derivation) :
    (c.insertAll span ds).count = c.count + (ds.removeAll (c.cell span)).eraseDups.length := by
  rw [count_insertAll, count_eq_size_add c span, OrderedSet.size_eq, OrderedSet.size_eq,
    OrderedSet.toList_insertAll_eq_append, List.length_append, cell]
  omega

/-! ## One operation -/

theorem toNat_ne_toNat {size i j i' j' : Int} (h : HasSpan size i j) (h' : HasSpan size i' j')
    (hne : (i', j') ≠ (i, j)) : ((i'.toNat, j'.toNat) : Span) ≠ (i.toNat, j.toNat) := by
  intro heq
  obtain ⟨hstart, hstop⟩ := Prod.mk.inj heq
  obtain ⟨hi, hij, -⟩ := h
  obtain ⟨hi', hij', -⟩ := h'
  exact hne (Prod.ext (by simp only; omega) (by simp only; omega))

theorem locate_of_hasSpan {c : Chart} {i j : Int} (h : HasSpan c.size i j) :
    c.locate i j = .ok (i.toNat, j.toNat) :=
  if_pos h

theorem locate_of_not_hasSpan {c : Chart} {i j : Int} (h : ¬ HasSpan c.size i j) :
    c.locate i j = .error ⟨i, j, c.size⟩ :=
  if_neg h

theorem perform_add_of_hasSpan {c : Chart} {i j : Int} (h : HasSpan c.size i j)
    (ds : List Derivation) :
    c.perform (.add i j ds) =
      (.ok (.number (ds.removeAll (c.cell (i.toNat, j.toNat))).eraseDups.length),
        c.insertAll (i.toNat, j.toNat) ds) := by
  have hnew : ((c.insertAll (i.toNat, j.toNat) ds).cellSet (i.toNat, j.toNat)).size -
      (c.cellSet (i.toNat, j.toNat)).size =
        (ds.removeAll (c.cell (i.toNat, j.toNat))).eraseDups.length := by
    rw [cellSet_insertAll, if_pos rfl, OrderedSet.size_eq, OrderedSet.size_eq,
      OrderedSet.toList_insertAll_eq_append, List.length_append, cell, Nat.add_sub_cancel_left]
  simp only [perform, steps, add, Change.on_bind, Change.on_getThe, Change.on_lift,
    locate_of_hasSpan h, Change.on_modify, Change.on_pure, hnew]

theorem perform_add_of_not_hasSpan {c : Chart} {i j : Int} (h : ¬ HasSpan c.size i j)
    (ds : List Derivation) : c.perform (.add i j ds) = (.error ⟨i, j, c.size⟩, c) := by
  simp only [perform, steps, add, Change.on_bind, Change.on_getThe, Change.on_lift,
    locate_of_not_hasSpan h]

theorem get_of_hasSpan {c : Chart} {i j : Int} (h : HasSpan c.size i j) :
    c.get i j = .ok (c.cell (i.toNat, j.toNat)) := by
  rw [get, locate_of_hasSpan h]
  rfl

theorem get_of_not_hasSpan {c : Chart} {i j : Int} (h : ¬ HasSpan c.size i j) :
    c.get i j = .error ⟨i, j, c.size⟩ := by
  rw [get, locate_of_not_hasSpan h]
  rfl

theorem perform_get (c : Chart) (i j : Int) :
    c.perform (.get i j) = ((c.get i j).map .derivations, c) := by
  simp only [perform, steps, Change.on_bind, Change.on_getThe, Change.on_lift]
  cases c.get i j <;> rfl

theorem perform_root (c : Chart) : c.perform .root = (c.root.map .derivations, c) := by
  simp only [perform, steps, Change.on_bind, Change.on_getThe, Change.on_lift]
  cases c.root <;> rfl

/-- An operation on a chart is an addition, or else leaves the chart as it is. -/
theorem perform_snd_cases (c : Chart) (op : ChartOperation) :
    (∃ i j ds, op = .add i j ds) ∨
      (c.perform op).2 = c ∧ ∀ i j, op.added i j = [] := by
  cases op with
  | add i j ds => exact .inl ⟨i, j, ds, rfl⟩
  | get => exact .inr ⟨by rw [perform_get], fun _ _ => rfl⟩
  | root => exact .inr ⟨by rw [perform_root], fun _ _ => rfl⟩
  | count => exact .inr ⟨rfl, fun _ _ => rfl⟩

theorem size_perform (c : Chart) (op : ChartOperation) : (c.perform op).2.size = c.size := by
  obtain ⟨i, j, ds, rfl⟩ | ⟨hsame, -⟩ := perform_snd_cases c op
  · by_cases h : HasSpan c.size i j
    · rw [perform_add_of_hasSpan h]
      rfl
    · rw [perform_add_of_not_hasSpan h]
  · rw [hsame]

/-- An operation adds to a cell of the chart what it asks for there, and nothing else. -/
theorem cellSet_perform {c : Chart} {i j : Int} (h : HasSpan c.size i j) (op : ChartOperation) :
    (c.perform op).2.cellSet (i.toNat, j.toNat) =
      (c.cellSet (i.toNat, j.toNat)).insertAll (op.added i j) := by
  obtain ⟨start, stop, ds, rfl⟩ | ⟨hsame, hadded⟩ := perform_snd_cases c op
  · by_cases hplace : start = i ∧ stop = j
    · obtain ⟨rfl, rfl⟩ := hplace
      rw [perform_add_of_hasSpan h, cellSet_insertAll, if_pos rfl, ChartOperation.added,
        if_pos ⟨rfl, rfl⟩]
    · rw [ChartOperation.added, if_neg hplace]
      by_cases hspan : HasSpan c.size start stop
      · have hne := toNat_ne_toNat h hspan fun heq => hplace (Prod.mk.inj heq)
        rw [perform_add_of_hasSpan hspan, cellSet_insertAll, if_neg hne]
        rfl
      · rw [perform_add_of_not_hasSpan hspan]
        rfl
  · rw [hsame, hadded]
    rfl

/-! ## Sequences of operations -/

theorem size_after (c : Chart) (ops : List ChartOperation) : (c.after ops).size = c.size := by
  induction ops generalizing c with
  | nil => rfl
  | cons op ops ih => exact (ih _).trans (size_perform c op)

theorem cellSet_after {c : Chart} {i j : Int} (h : HasSpan c.size i j)
    (ops : List ChartOperation) :
    (c.after ops).cellSet (i.toNat, j.toNat) =
      (c.cellSet (i.toNat, j.toNat)).insertAll (ops.flatMap (ChartOperation.added i j)) := by
  induction ops generalizing c with
  | nil => rfl
  | cons op ops ih =>
    have hstep : HasSpan (c.perform op).2.size i j := by rwa [size_perform]
    rw [after, List.foldl_cons, ← after, ih hstep, cellSet_perform h, List.flatMap_cons,
      OrderedSet.insertAll, OrderedSet.insertAll, OrderedSet.insertAll, List.foldl_append]

theorem cell_after {size i j : Int} (h : HasSpan size i j) (ops : List ChartOperation) :
    ((empty size).after ops).cell (i.toNat, j.toNat) =
      (ops.flatMap (ChartOperation.added i j)).eraseDups := by
  have hempty : (empty size).cell (i.toNat, j.toNat) = [] := cell_empty size _
  rw [cell, cellSet_after h, OrderedSet.toList_insertAll_eq_append, ← cell, hempty,
    List.nil_append, List.removeAll_nil]

/-! ## All cells together -/

/-- The places of the cells of a chart. -/
def places (size : Int) : List Span :=
  wordSpans size.toNat ++ spans size.toNat

theorem mem_places {size i j : Int} (h : HasSpan size i j) :
    (i.toNat, j.toNat) ∈ places size := by
  obtain ⟨hi, hij, hj⟩ := h
  by_cases hone : j = i + 1
  · exact List.mem_append_left _
      (mem_wordSpans_iff.mpr ⟨by simp only; omega, by simp only; omega⟩)
  · exact List.mem_append_right _ (mem_spans_iff.mpr ⟨by simp only; omega, by simp only; omega⟩)

theorem nodup_places (size : Int) : (places size).Nodup := by
  have hwords : (wordSpans size.toNat).Nodup :=
    List.nodup_range.map fun i i' h => congrArg Prod.fst h
  have hspans : (spans size.toNat).Nodup := (pairwise_spans _).imp And.right
  refine List.nodup_append.mpr ⟨hwords, hspans, ?_⟩
  rintro span hword _ hspan rfl
  have := (mem_wordSpans_iff.mp hword).1
  have := (mem_spans_iff.mp hspan).1
  omega

/-- The number of derivations in the cells at the given places. -/
def countAt (c : Chart) (ss : List Span) : Nat :=
  (ss.map fun span => (c.cell span).length).sum

theorem countAt_insertAll_of_notMem {ss : List Span} {span : Span} (h : span ∉ ss) (c : Chart)
    (ds : List Derivation) : (c.insertAll span ds).countAt ss = c.countAt ss := by
  refine congrArg List.sum (List.map_congr_left fun other hother => ?_)
  have hne : span ≠ other := fun heq => h (heq ▸ hother)
  rw [cell_insertAll, if_neg hne]

theorem countAt_insertAll {ss : List Span} {span : Span} (hss : ss.Nodup) (h : span ∈ ss)
    (c : Chart) (ds : List Derivation) :
    (c.insertAll span ds).countAt ss =
      c.countAt ss + (ds.removeAll (c.cell span)).eraseDups.length := by
  obtain ⟨front, behind, rfl⟩ := List.append_of_mem h
  obtain ⟨-, hbehind, hdisjoint⟩ := List.nodup_append.mp hss
  have hcut : ∀ c : Chart, c.countAt (front ++ span :: behind) =
      c.countAt front + ((c.cell span).length + c.countAt behind) := by
    intro c
    simp only [countAt, List.map_append, List.map_cons, List.sum_append, List.sum_cons]
  have hfront : span ∉ front := fun hmem => hdisjoint span hmem span List.mem_cons_self rfl
  rw [hcut, hcut, countAt_insertAll_of_notMem hfront,
    countAt_insertAll_of_notMem (List.nodup_cons.mp hbehind).1, cell_insertAll, if_pos rfl,
    OrderedSet.toList_insertAll_eq_append, List.length_append, ← cell]
  omega

/-- A chart counts the derivations of all its cells, and an operation keeps it so. -/
theorem count_perform {c : Chart} (h : c.count = c.countAt (places c.size))
    (op : ChartOperation) : (c.perform op).2.count = (c.perform op).2.countAt (places c.size) := by
  obtain ⟨i, j, ds, rfl⟩ | ⟨hsame, -⟩ := perform_snd_cases c op
  · by_cases hspan : HasSpan c.size i j
    · rw [perform_add_of_hasSpan hspan, count_insertAll_eq_add,
        countAt_insertAll (nodup_places _) (mem_places hspan), h]
    · rwa [perform_add_of_not_hasSpan hspan]
  · rwa [hsame]

theorem count_after {c : Chart} (h : c.count = c.countAt (places c.size))
    (ops : List ChartOperation) : (c.after ops).count = (c.after ops).countAt (places c.size) := by
  induction ops generalizing c with
  | nil => exact h
  | cons op ops ih =>
    have hstep := count_perform h op
    rw [← size_perform c op] at hstep ⊢
    exact ih hstep

theorem count_empty (size : Int) : (empty size).count = (empty size).countAt (places size) := by
  have hcells : (places size).map (fun span => ((empty size).cell span).length) =
      (places size).map fun _ => 0 :=
    List.map_congr_left fun span _ => by rw [cell_empty, List.length_nil]
  rw [countAt, hcells, count_eq_sum]
  simp [empty]

end Chart

open Chart

/-- **A chart remembers what was added.** Let operations be performed on the empty chart of any
size. At places that the chart has, the cell holds all derivations that were added there, in the
order of first addition and each once. A further addition there is answered by the number of those
that are new to the cell, by which the number of all derivations grows as well; it changes no other
cell. At all other places, and only there, an addition and a look at the cell are refused and leave
the chart as it is. Looking at the chart changes nothing. The whole sentence has the cell between
its ends, or nothing if it has no word; and the number of derivations is that of all cells
together. -/
theorem chart_remembers_additions (size : Int) (ops : List ChartOperation) :
    let c := (empty size).after ops
    let added := fun i j => ops.flatMap (ChartOperation.added i j)
    (∀ i j, HasSpan size i j →
        c.perform (.get i j) = (.ok (.derivations (added i j).eraseDups), c)) ∧
      (∀ i j, HasSpan size i j → ∀ ds, ∃ n c', c.perform (.add i j ds) = (.ok (.number n), c') ∧
        n = (ds.removeAll (added i j)).eraseDups.length ∧ c'.count = c.count + n ∧
        c'.get i j = .ok (added i j ++ ds).eraseDups ∧
        ∀ i' j', HasSpan size i' j' → (i', j') ≠ (i, j) → c'.get i' j' = c.get i' j') ∧
      (∀ i j, ¬ HasSpan size i j → c.perform (.get i j) = (.error ⟨i, j, size⟩, c) ∧
        ∀ ds, c.perform (.add i j ds) = (.error ⟨i, j, size⟩, c)) ∧
      c.perform .root = (if size = 0 then (.ok (.derivations []), c) else c.perform (.get 0 size)) ∧
      c.perform .count = (.ok (.number (c.countAt (places size))), c) := by
  intro c added
  have hsize : c.size = size := size_after _ ops
  have hcell : ∀ i j, HasSpan size i j → c.cell (i.toNat, j.toNat) = (added i j).eraseDups :=
    fun _ _ h => cell_after h ops
  have hget : ∀ i j, HasSpan size i j → c.get i j = .ok (added i j).eraseDups := by
    intro i j h
    rw [get_of_hasSpan (hsize ▸ h), hcell i j h]
  have hcount : c.count = c.countAt (places size) := count_after (count_empty size) ops
  refine ⟨fun i j h => ?_, fun i j h ds => ⟨_, _, perform_add_of_hasSpan (hsize ▸ h) ds, ?_, ?_, ?_,
    fun i' j' h' hne => ?_⟩, fun i j h => ⟨?_, fun ds => ?_⟩, ?_, ?_⟩
  · rw [perform_get, hget i j h]
    rfl
  · rw [hcell i j h, Distinct.removeAll_eraseDups]
  · exact count_insertAll_eq_add _ _ _
  · have hspan : HasSpan (c.insertAll (i.toNat, j.toNat) ds).size i j := hsize ▸ h
    rw [get_of_hasSpan hspan, cell_insertAll, if_pos rfl, OrderedSet.toList_insertAll_eq_append,
      ← cell, hcell i j h, Distinct.removeAll_eraseDups, List.eraseDups_append]
  · have hspan : HasSpan (c.insertAll (i.toNat, j.toNat) ds).size i' j' := hsize ▸ h'
    rw [get_of_hasSpan hspan, get_of_hasSpan (hsize ▸ h'), cell_insertAll,
      if_neg (toNat_ne_toNat h h' hne).symm]
  · rw [perform_get, get_of_not_hasSpan (hsize ▸ h), hsize]
    rfl
  · rw [perform_add_of_not_hasSpan (hsize ▸ h), hsize]
  · rw [perform_root, Chart.root, perform_get, hsize]
    split <;> rfl
  · rw [← hcount]
    rfl

end Categorial

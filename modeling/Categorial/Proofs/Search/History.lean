import Categorial.Proofs.Grammar.Cache
import Categorial.Search.BestFirst

/-!
# The history of a search

What the state of a search files under spans, starts and stops can be read off the list of the
items taken so far, in the order in which they were taken. A step of the search either passes over
an item, and then the history stays as it is, or it takes the item, and then the items above it and
its neighbours come on the agenda. What holds of history and agenda at the start and is kept by the
two moves therefore holds at the end.

* `Search.Records`: the state is that of a history.
* `Search.records_step`: the two moves of a step.
* `Search.run_induction`, `Search.run_induction_steps`: the principle for whole runs.
-/

namespace Categorial

namespace Search

variable {α : Type} [Add α] [Sub α] [Neg α] [Mul α] [OfNat α 0] [OfNat α 1] [LT α] [DecidableLT α]

/-! ## What a history determines -/

/-- Whether an item is one of the whole sentence. -/
def Frame.isWhole (f : Frame α) (a : Item α) : Bool :=
  a.start = 0 ∧ a.stop = f.size

/-- The derivations taken for a span and category. -/
def ofSlot (taken : List (Item α)) (slot : Span × Option Category) : List Derivation :=
  (taken.filter fun a => a.slot == slot).map (·.derivation)

/-- The items of parts of the sentence that start at a place. -/
def startingAt (f : Frame α) (taken : List (Item α)) (k : Nat) : List (Item α) :=
  taken.filter fun a => !f.isWhole a && a.start == k

/-- The items of parts of the sentence that stop at a place. -/
def stoppingAt (f : Frame α) (taken : List (Item α)) (k : Nat) : List (Item α) :=
  taken.filter fun a => !f.isWhole a && a.stop == k

/-- The items that are results. -/
def found (f : Frame α) (taken : List (Item α)) : List (Item α) :=
  taken.filter fun a => f.isWhole a && f.admits a.derivation.category

/-- The derivations of the results. -/
def results (f : Frame α) (taken : List (Item α)) : List Derivation :=
  (found f taken).map (·.derivation)

/-- The results with their scores. -/
def scoredResults (f : Frame α) (taken : List (Item α)) : List (Scored α) :=
  (found f taken).map fun a => ⟨a.derivation, -a.cost⟩

omit [Add α] [Sub α] [Mul α] [OfNat α 0] [OfNat α 1] [LT α] [DecidableLT α] in
theorem map_derivation_scoredResults (f : Frame α) (taken : List (Item α)) :
    (scoredResults f taken).map (·.derivation) = results f taken := by
  rw [scoredResults, List.map_map]
  rfl

/-- The items above two neighbours. -/
def parentItems (f : Frame α) (left right : Item α) : List (Item α) :=
  (Derivation.parents left.derivation right.derivation).map (parentItem f left right)

/-- The pairs of neighbours that a new item is part of. -/
def neighbours (f : Frame α) (taken : List (Item α)) (item : Item α) :
    List (Item α × Item α) :=
  (startingAt f taken item.stop).map (fun right => (item, right)) ++
    (stoppingAt f taken item.start).map fun left => (left, item)

/-- The items that come on the agenda with a new one. -/
def joins (f : Frame α) (taken : List (Item α)) (item : Item α) : List (Item α) :=
  if f.isWhole item then [] else (neighbours f taken item).flatMap fun p => parentItems f p.1 p.2

/-- Enough derivations are taken for the span and the category of the item, or its own is. -/
def PassedOver (f : Frame α) (taken : List (Item α)) (item : Item α) : Prop :=
  f.limit ≤ (ofSlot taken item.slot).length ∨ item.derivation ∈ ofSlot taken item.slot

/-- The state files what is in the history. -/
structure Records (f : Frame α) (taken : List (Item α)) (s : State α) : Prop where
  kept : ∀ slot, s.kept.group slot = ofSlot taken slot
  byStart : ∀ k, s.byStart.group k = startingAt f taken k
  byStop : ∀ k, s.byStop.group k = stoppingAt f taken k
  results : s.results.toList = scoredResults f taken
  cache : s.cache.Valid

omit [Mul α] [OfNat α 1] in
theorem records_start (f : Frame α) (leaves : List (List (Derivation × α))) :
    Records f [] (start f leaves) := by
  refine ⟨fun _ => ?_, fun _ => ?_, fun _ => ?_, rfl, Cache.valid_empty⟩
  · exact Grouped.group_empty _
  · exact Grouped.group_empty _
  · exact Grouped.group_empty _

omit [Add α] [Sub α] [Mul α] [OfNat α 0] [OfNat α 1] [LT α] [DecidableLT α] in
theorem Records.passesOver_iff {f : Frame α} {taken : List (Item α)} {s : State α}
    (h : Records f taken s) (item : Item α) :
    s.passesOver f item = true ↔ PassedOver f taken item := by
  simp only [State.passesOver, h.kept, Bool.or_eq_true, decide_eq_true_eq, List.contains_iff_mem,
    PassedOver]

/-! ## One step -/

theorem pushParents_spec (f : Frame α) (left right : Item α) (q : Agenda (Item α)) {c : Cache}
    (hc : c.Valid) :
    (pushParents f left right (q, c)).1 =
        (parentItems f left right).foldl (fun q a => q.insert Item.before a) q ∧
      (pushParents f left right (q, c)).2.Valid := by
  obtain ⟨hresult, hvalid⟩ :=
    Derivation.gives_cachedParents left.derivation right.derivation c hc
  refine ⟨?_, hvalid⟩
  rw [parentItems, List.foldl_map, ← hresult]
  rfl

theorem foldl_pushParents_spec (f : Frame α) (pairs : List (Item α × Item α))
    (q : Agenda (Item α)) {c : Cache} (hc : c.Valid) :
    (pairs.foldl (fun p lr => pushParents f lr.1 lr.2 p) (q, c)).1 =
        (pairs.flatMap fun p => parentItems f p.1 p.2).foldl
          (fun q a => q.insert Item.before a) q ∧
      (pairs.foldl (fun p lr => pushParents f lr.1 lr.2 p) (q, c)).2.Valid := by
  induction pairs generalizing q c with
  | nil => exact ⟨rfl, hc⟩
  | cons p pairs ih =>
    obtain ⟨hagenda, hvalid⟩ := pushParents_spec f p.1 p.2 q hc
    rw [List.foldl_cons, List.flatMap_cons, List.foldl_append, ← hagenda]
    exact ih _ hvalid

theorem records_expand {f : Frame α} {taken : List (Item α)} (s : State α) (item : Item α)
    (hstart : ∀ k, s.byStart.group k = startingAt f taken k)
    (hstop : ∀ k, s.byStop.group k = stoppingAt f taken k) (hc : s.cache.Valid)
    (hwhole : f.isWhole item = false) :
    (∀ k, (expand f item s).byStart.group k = startingAt f (taken ++ [item]) k) ∧
      (∀ k, (expand f item s).byStop.group k = stoppingAt f (taken ++ [item]) k) ∧
      (expand f item s).cache.Valid ∧
      (expand f item s).agenda =
        (joins f (taken ++ [item]) item).foldl (fun q a => q.insert Item.before a) s.agenda := by
  have hstart' : ∀ k, (s.byStart.insert item.start item).group k =
      startingAt f (taken ++ [item]) k := by
    intro k
    rw [Grouped.group_insert, hstart, startingAt, startingAt, List.filter_append]
    by_cases hk : item.start = k <;> simp [hk, hwhole]
  have hstop' : ∀ k, (s.byStop.insert item.stop item).group k =
      stoppingAt f (taken ++ [item]) k := by
    intro k
    rw [Grouped.group_insert, hstop, stoppingAt, stoppingAt, List.filter_append]
    by_cases hk : item.stop = k <;> simp [hk, hwhole]
  obtain ⟨hagenda, hvalid⟩ :=
    foldl_pushParents_spec f (neighbours f (taken ++ [item]) item) s.agenda hc
  rw [neighbours, List.foldl_append, List.foldl_map, List.foldl_map, ← hstart', ← hstop']
    at hagenda hvalid
  refine ⟨hstart', hstop', hvalid, ?_⟩
  rw [joins, hwhole, if_neg Bool.false_ne_true, neighbours, ← hstart', ← hstop']
  exact hagenda

theorem records_accept {f : Frame α} {taken : List (Item α)} {s : State α} {item : Item α}
    (h : Records f taken s) :
    Records f (taken ++ [item]) (accept f item s) ∧
      (accept f item s).agenda =
        (joins f (taken ++ [item]) item).foldl (fun q a => q.insert Item.before a) s.agenda := by
  have hkept : ∀ slot, (s.kept.insert item.slot item.derivation).group slot =
      ofSlot (taken ++ [item]) slot := by
    intro slot
    rw [Grouped.group_insert, h.kept, ofSlot, ofSlot, List.filter_append, List.map_append]
    by_cases hslot : item.slot = slot <;> simp [hslot]
  unfold accept
  by_cases hwhole : item.start = 0 ∧ item.stop = f.size
  · -- an item of the whole sentence has no neighbours and is not filed as one
    have hisWhole : f.isWhole item = true := by simpa [Frame.isWhole] using hwhole
    have hstart : ∀ k, startingAt f (taken ++ [item]) k = startingAt f taken k := by
      intro k
      simp [startingAt, hisWhole]
    have hstop : ∀ k, stoppingAt f (taken ++ [item]) k = stoppingAt f taken k := by
      intro k
      simp [stoppingAt, hisWhole]
    have hrecords : ∀ rs : Array (Scored α), rs.toList = scoredResults f (taken ++ [item]) →
        Records f (taken ++ [item])
          { s with kept := s.kept.insert item.slot item.derivation, results := rs } :=
      fun rs hrs => ⟨hkept, fun k => (hstart k).symm ▸ h.byStart k,
        fun k => (hstop k).symm ▸ h.byStop k, hrs, h.cache⟩
    rw [if_pos hwhole, joins, hisWhole, if_pos rfl]
    by_cases hadmits : f.admits item.derivation.category = true
    · rw [if_pos hadmits]
      exact ⟨hrecords _ (by simp [scoredResults, found, hisWhole, hadmits, h.results]), rfl⟩
    · rw [if_neg hadmits]
      exact ⟨hrecords _ (by simp [scoredResults, found, hisWhole, hadmits, h.results]), rfl⟩
  · have hisWhole : f.isWhole item = false := by simpa [Frame.isWhole] using hwhole
    rw [if_neg hwhole]
    obtain ⟨hstart, hstop, hcache, hagenda⟩ := records_expand
      { s with kept := s.kept.insert item.slot item.derivation } item h.byStart h.byStop h.cache
      hisWhole
    refine ⟨⟨hkept, hstart, hstop, ?_, hcache⟩, hagenda⟩
    have hfound : found f (taken ++ [item]) = found f taken := by simp [found, hisWhole]
    rw [scoredResults, hfound]
    exact h.results

/-- The moves of a search: the first item of the agenda is passed over, or it is taken and the items
above it and its neighbours come on the agenda. -/
theorem records_step {f : Frame α} {taken : List (Item α)} {s : State α} {item : Item α}
    {rest : Agenda (Item α)} (h : Records f taken s)
    (hout : s.agenda.remove? Item.before = some (item, rest)) :
    (PassedOver f taken item ∧ Records f taken (step f s) ∧ (step f s).agenda = rest) ∨
      (¬ PassedOver f taken item ∧ Records f (taken ++ [item]) (step f s) ∧
        (step f s).agenda =
          (joins f (taken ++ [item]) item).foldl (fun q a => q.insert Item.before a) rest) := by
  have hrest : Records f taken { s with agenda := rest, steps := s.steps + 1 } :=
    ⟨h.kept, h.byStart, h.byStop, h.results, h.cache⟩
  unfold step
  rw [hout]
  by_cases hover : PassedOver f taken item
  · simp only [if_pos ((hrest.passesOver_iff item).mpr hover)]
    exact .inl ⟨hover, hrest, trivial⟩
  · simp only [if_neg (mt (hrest.passesOver_iff item).mp hover)]
    exact .inr ⟨hover, records_accept hrest⟩

theorem steps_accept (f : Frame α) (item : Item α) (s : State α) :
    (accept f item s).steps = s.steps := by
  unfold accept
  split
  · split <;> rfl
  · rfl

theorem steps_step {f : Frame α} {s : State α} {item : Item α} {rest : Agenda (Item α)}
    (hout : s.agenda.remove? Item.before = some (item, rest)) :
    (step f s).steps = s.steps + 1 := by
  unfold step
  rw [hout]
  simp only
  split
  · rfl
  · exact steps_accept f item _

/-! ## Whole runs -/

/-- A property of steps, history and agenda that both moves keep holds when a search ends. Results
are still missing whenever an item is taken. -/
theorem run_induction_steps {f : Frame α} {P : Nat → List (Item α) → Agenda (Item α) → Prop}
    (hover : ∀ k taken q item rest, P k taken q → q.remove? Item.before = some (item, rest) →
      PassedOver f taken item → P (k + 1) taken rest)
    (htake : ∀ k taken q item rest, P k taken q → q.remove? Item.before = some (item, rest) →
      ¬ PassedOver f taken item → (found f taken).length < f.limit →
      P (k + 1) (taken ++ [item])
        ((joins f (taken ++ [item]) item).foldl (fun q a => q.insert Item.before a) rest))
    (n : Nat) {taken : List (Item α)} {s : State α} (h : Records f taken s)
    (hP : P s.steps taken s.agenda) :
    ∃ taken', Records f taken' (run f n s).1 ∧ P (run f n s).1.steps taken' (run f n s).1.agenda ∧
      ((run f n s).2 = false → (run f n s).1.isFinished f = true) := by
  induction n generalizing taken s with
  | zero =>
    refine ⟨taken, h, hP, fun hcut => ?_⟩
    simpa [run] using hcut
  | succ n ih =>
    rw [run]
    by_cases hfinished : s.isFinished f = true
    · rw [if_pos hfinished]
      exact ⟨taken, h, hP, fun _ => hfinished⟩
    · rw [if_neg hfinished]
      have hopen : (found f taken).length < f.limit := by
        have hsize := congrArg List.length h.results
        simp only [scoredResults, Array.length_toList, List.length_map] at hsize
        simp only [State.isFinished, Bool.or_eq_true, decide_eq_true_eq, not_or] at hfinished
        omega
      cases hout : s.agenda.remove? Item.before with
      | none =>
        have hstep : step f s = s := by
          unfold step
          rw [hout]
        rw [hstep]
        exact ih h hP
      | some out =>
        obtain ⟨item, rest⟩ := out
        have hsteps := steps_step (f := f) hout
        rcases records_step h hout with ⟨hpass, hrec, hagenda⟩ | ⟨hpass, hrec, hagenda⟩
        · have hkept := hover s.steps taken _ item rest hP hout hpass
          exact ih hrec (hsteps ▸ hagenda ▸ hkept)
        · have hkept := htake s.steps taken _ item rest hP hout hpass hopen
          exact ih hrec (hsteps ▸ hagenda ▸ hkept)

/-- A property of history and agenda that both moves keep holds when a search ends. -/
theorem run_induction {f : Frame α} {P : List (Item α) → Agenda (Item α) → Prop}
    (hover : ∀ taken q item rest, P taken q → q.remove? Item.before = some (item, rest) →
      PassedOver f taken item → P taken rest)
    (htake : ∀ taken q item rest, P taken q → q.remove? Item.before = some (item, rest) →
      ¬ PassedOver f taken item → (found f taken).length < f.limit →
      P (taken ++ [item])
        ((joins f (taken ++ [item]) item).foldl (fun q a => q.insert Item.before a) rest))
    (n : Nat) {taken : List (Item α)} {s : State α} (h : Records f taken s)
    (hP : P taken s.agenda) :
    ∃ taken', Records f taken' (run f n s).1 ∧ P taken' (run f n s).1.agenda ∧
      ((run f n s).2 = false → (run f n s).1.isFinished f = true) :=
  run_induction_steps (P := fun _ => P) (fun _ => hover) (fun _ => htake) n h hP

end Search

end Categorial

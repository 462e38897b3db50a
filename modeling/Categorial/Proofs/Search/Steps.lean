import Mathlib.Algebra.GroupWithZero.Nat
import Categorial.Proofs.Search.Operations
import Categorial.Proofs.Search.Results

/-!
# How many steps a search takes

Every step takes an item from the agenda. The items that come on the agenda after the leaves are
above two items taken before, and these two can be read off them; as no item is taken twice, none of
them comes twice. So there are at most as many steps as there are leaves and derivations of parts of
the sentence. A limit on the steps that is not less than this has no effect, and with any other the
search is a first part of the whole one.

* `Search.run_add`: a run in two parts.
* `Search.nodup_joins`: the items that come with a new one are different.
* `Search.Ledger`: what has come on the agenda, and how much of it is still there.
* `Search.steps_add_size_le`: the bound on the steps of a run.
* `search_bounded`: the effect of the limit on the steps.
-/

namespace Categorial

open Categorial.Derivation

/-- The number of available leaves of a sentence, each as often as its category is listed. -/
def leafCount {ε α : Type} (scorer : Scorer ε α) (lexicon : LexicalEntries) (words : List String) :
    Nat :=
  (words.zipIdx.map fun p => (lexicon p.1).countP fun c =>
    (scorer.leafScore p.2 (.leaf c (some p.1))).isSome).sum

/-- The number of derivations of all parts of a sentence that have several words. -/
def partCount (lexicon : LexicalEntries) (words : List String) : Nat :=
  ((Chart.spans words.length).map fun span => (parse lexicon (Chart.slice words span)).length).sum

namespace Search

section

variable {α : Type} [Add α] [Sub α] [Neg α] [Mul α] [OfNat α 0] [OfNat α 1] [LT α] [DecidableLT α]

/-! ## Runs of different lengths -/

theorem prefix_accept (f : Frame α) (item : Item α) (s : State α) :
    s.results.toList <+: (accept f item s).results.toList := by
  unfold accept
  split
  · split
    · rw [Array.toList_push]
      exact List.prefix_append _ _
    · exact List.prefix_rfl
  · exact List.prefix_rfl

theorem prefix_step (f : Frame α) (s : State α) :
    s.results.toList <+: (step f s).results.toList := by
  unfold step
  split
  · exact List.prefix_rfl
  · next item rest _ =>
    have haccept := prefix_accept f item { s with agenda := rest, steps := s.steps + 1 }
    simp only
    split
    · exact List.prefix_rfl
    · exact haccept

theorem prefix_run (f : Frame α) (n : Nat) (s : State α) :
    s.results.toList <+: (run f n s).1.results.toList := by
  induction n generalizing s with
  | zero => exact List.prefix_rfl
  | succ n ih =>
    rw [run]
    split
    · exact List.prefix_rfl
    · exact (prefix_step f s).trans (ih (step f s))

theorem run_of_isFinished {f : Frame α} {s : State α} (h : s.isFinished f = true) (n : Nat) :
    run f n s = (s, false) := by
  cases n <;> simp [run, h]

/-- A run goes on where a shorter one was cut off. -/
theorem run_add (f : Frame α) (n k : Nat) (s : State α) :
    run f (n + k) s = if (run f n s).2 then run f k (run f n s).1 else run f n s := by
  induction n generalizing s with
  | zero =>
    by_cases hfinished : s.isFinished f = true
    · simp [run, hfinished, run_of_isFinished hfinished]
    · simp [run, hfinished]
  | succ n ih =>
    rw [Nat.succ_add, run, run]
    split
    · rfl
    · exact ih (step f s)

theorem run_eq_of_le {f : Frame α} {s : State α} {n m : Nat} (hdone : (run f n s).2 = false)
    (hle : n ≤ m) : run f m s = run f n s := by
  obtain ⟨k, rfl⟩ := Nat.exists_eq_add_of_le hle
  rw [run_add, hdone, if_neg Bool.false_ne_true]

/-- A run finds what a shorter one finds before anything else. -/
theorem prefix_run_of_le (f : Frame α) (s : State α) {n m : Nat} (hle : n ≤ m) :
    (run f n s).1.results.toList <+: (run f m s).1.results.toList := by
  obtain ⟨k, rfl⟩ := Nat.exists_eq_add_of_le hle
  rw [run_add]
  split
  · exact prefix_run f k _
  · exact List.prefix_rfl

omit [Add α] [Sub α] [Neg α] [Mul α] [OfNat α 0] [OfNat α 1] in
/-- While there is more to do, an item can be taken from the agenda. -/
theorem exists_remove?_of_not_isFinished {f : Frame α} {s : State α}
    (h : ¬ s.isFinished f = true) :
    ∃ item rest, s.agenda.remove? Item.before = some (item, rest) := by
  refine Agenda.exists_remove? Item.before fun hnil => h ?_
  simp [State.isFinished, Agenda.isEmpty, Array.toList_eq_nil_iff.mp hnil]

/-- A run is cut off only when all its steps are made and there is more to do. -/
theorem run_of_cut {f : Frame α} {n : Nat} {s : State α} (h : (run f n s).2 = true) :
    (run f n s).1.isFinished f = false ∧ (run f n s).1.steps = s.steps + n := by
  induction n generalizing s with
  | zero => exact ⟨by simpa [run] using h, rfl⟩
  | succ n ih =>
    by_cases hfinished : s.isFinished f = true
    · rw [run, if_pos hfinished] at h
      cases h
    · rw [run, if_neg hfinished] at h ⊢
      obtain ⟨hopen, hsteps⟩ := ih h
      obtain ⟨item, rest, hout⟩ := exists_remove?_of_not_isFinished hfinished
      rw [steps_step hout] at hsteps
      exact ⟨hopen, by omega⟩

/-- A run makes no more steps than it is given. -/
theorem steps_run_bounds (f : Frame α) (n : Nat) (s : State α) :
    s.steps ≤ (run f n s).1.steps ∧ (run f n s).1.steps ≤ s.steps + n := by
  induction n generalizing s with
  | zero => exact ⟨Nat.le_refl _, Nat.le_refl _⟩
  | succ n ih =>
    by_cases hfinished : s.isFinished f = true
    · rw [run, if_pos hfinished]
      exact ⟨Nat.le_refl _, Nat.le_add_right _ _⟩
    · rw [run, if_neg hfinished]
      obtain ⟨item, rest, hout⟩ := exists_remove?_of_not_isFinished hfinished
      have hsteps := steps_step (f := f) hout
      obtain ⟨hlower, hupper⟩ := ih (step f s)
      constructor <;> omega

/-- A run that is cut off makes fewer steps than one that is given more of them. -/
theorem steps_run_lt_of_cut {f : Frame α} {n m : Nat} {s : State α}
    (hcut : (run f n s).2 = true) (hlt : n < m) :
    (run f n s).1.steps < (run f m s).1.steps := by
  obtain ⟨k, rfl⟩ := Nat.exists_eq_add_of_lt hlt
  obtain ⟨hopen, -⟩ := run_of_cut hcut
  obtain ⟨item, rest, hout⟩ :=
    exists_remove?_of_not_isFinished (Bool.eq_false_iff.mp hopen)
  have hsteps := steps_step (f := f) hout
  have hmore := (steps_run_bounds f k (step f (run f n s).1)).1
  rw [Nat.add_assoc, run_add, if_pos hcut, run, if_neg (Bool.eq_false_iff.mp hopen)]
  omega

/-- Nothing in a run looks at the limit on the steps. -/
theorem run_maxSteps (request : Request α) (limit : Int) (leaves : List (List (Derivation × α)))
    (n : Nat) (s : State α) :
    run (frame { request with maxSteps := limit } leaves) n s = run (frame request leaves) n s := by
  induction n generalizing s with
  | zero => rfl
  | succ n ih =>
    have hstep : step (frame { request with maxSteps := limit } leaves) s =
        step (frame request leaves) s := rfl
    rw [run, run, hstep, ih]
    rfl

end

/-! ## What two neighbours have above them -/

section

variable {α : Type} [Add α] [Sub α] [Neg α] [Mul α] [OfNat α 0] [OfNat α 1]
  {score : Nat → Derivation → Option α} {lexicon : LexicalEntries} {words : List String}
  {f : Frame α} {taken : List (Item α)} {a b left right left' right' item : Item α}

theorem Placed.start_lt_stop (h : Placed score lexicon words f a) : a.start < a.stop := by
  obtain ⟨i, u, d, hfits, rfl⟩ := h
  exact hfits.stop_le.1

/-- A derivation and its start determine the item. -/
theorem Placed.eq_of_start (ha : Placed score lexicon words f a)
    (hb : Placed score lexicon words f b) (hstart : a.start = b.start)
    (hderivation : a.derivation = b.derivation) : a = b := by
  obtain ⟨i, u, d, hd, rfl⟩ := ha
  obtain ⟨j, v, e, he, rfl⟩ := hb
  obtain rfl : i = j := hstart
  obtain rfl : d = e := hderivation
  rw [hd.licensed.words_unique he.licensed]

theorem Placed.isRaised_eq_false (h : Placed score lexicon words f a) :
    a.derivation.isRaised = false := by
  obtain ⟨i, u, d, hfits, rfl⟩ := h
  exact hfits.licensed.isRaised_eq_false

/-- The item is above two neighbours. -/
def Joined (f : Frame α) (left right a : Item α) : Prop :=
  left.stop = right.start ∧
    ∃ p ∈ parents left.derivation right.derivation, a = parentItem f left right p

/-- The neighbours can be read off what is above them. -/
theorem Joined.unique (hleft : Placed score lexicon words f left)
    (hright : Placed score lexicon words f right) (hleft' : Placed score lexicon words f left')
    (hright' : Placed score lexicon words f right') (h : Joined f left right a)
    (h' : Joined f left' right' a) : left = left' ∧ right = right' := by
  obtain ⟨hnext, p, hp, rfl⟩ := h
  obtain ⟨hnext', p', hp', heq⟩ := h'
  have hstart : left.start = left'.start := (congrArg Item.start heq :)
  obtain rfl : p = p' := congrArg Item.derivation heq
  have hparts := joined_of_mem_parents hleft.isRaised_eq_false hp
  rw [joined_of_mem_parents hleft'.isRaised_eq_false hp'] at hparts
  obtain ⟨hl, hr⟩ := Prod.mk.inj (Option.some.inj hparts)
  obtain rfl := hleft.eq_of_start hleft' hstart hl.symm
  exact ⟨rfl, hright.eq_of_start hright' (hnext.symm.trans hnext') hr.symm⟩

theorem nodup_parentItems (f : Frame α) (left right : Item α) :
    (parentItems f left right).Nodup :=
  (nodup_parents left.derivation right.derivation).map fun _ _ h => congrArg Item.derivation h

theorem nodup_neighbours (htaken : taken.Nodup) (hitem : Placed score lexicon words f item) :
    (neighbours f taken item).Nodup := by
  refine List.Nodup.append ((htaken.filter _).map fun _ _ h => (Prod.mk.inj h).2)
    ((htaken.filter _).map fun _ _ h => (Prod.mk.inj h).1) ?_
  intro pair hfirst hsecond
  obtain ⟨r, -, rfl⟩ := List.mem_map.mp hfirst
  obtain ⟨l, hl, heq⟩ := List.mem_map.mp hsecond
  -- an item is no neighbour of itself
  obtain ⟨rfl, -⟩ := Prod.mk.inj heq
  have hstop : l.stop = l.start :=
    eq_of_beq (Bool.and_eq_true_iff.mp (List.mem_filter.mp hl).2).2
  have hlt := hitem.start_lt_stop
  omega

theorem nodup_joins (hplaced : ∀ a ∈ taken, Placed score lexicon words f a)
    (htaken : taken.Nodup) (hitem : item ∈ taken) : (joins f taken item).Nodup := by
  unfold joins
  split
  · exact List.nodup_nil
  · refine List.nodup_flatMap.mpr ⟨fun pair _ => nodup_parentItems f pair.1 pair.2, ?_⟩
    have hpairs := nodup_neighbours htaken (hplaced item hitem)
    refine hpairs.imp_of_mem fun {pair pair'} hpair hpair' hne a ha ha' => hne ?_
    obtain ⟨hl, hr, hnext, -⟩ := of_mem_neighbours hitem hpair
    obtain ⟨hl', hr', hnext', -⟩ := of_mem_neighbours hitem hpair'
    obtain ⟨p, hp, rfl⟩ := List.mem_map.mp ha
    obtain ⟨p', hp', heq⟩ := List.mem_map.mp ha'
    obtain ⟨hleft, hright⟩ := Joined.unique (hplaced _ hl) (hplaced _ hr) (hplaced _ hl')
      (hplaced _ hr') ⟨hnext, p, hp, rfl⟩ ⟨hnext', p', hp', heq.symm⟩
    exact Prod.ext hleft hright

/-- The items of all derivations of parts of a sentence that have several words. -/
def partItems (score : Nat → Derivation → Option α) (lexicon : LexicalEntries)
    (words : List String) (f : Frame α) : List (Item α) :=
  (Chart.spans words.length).flatMap fun span =>
    (parse lexicon (Chart.slice words span)).map (itemAt score f span.1 span.2)

theorem length_partItems (score : Nat → Derivation → Option α) (f : Frame α) :
    (partItems score lexicon words f).length = partCount lexicon words := by
  simp only [partItems, partCount, List.length_flatMap, List.length_map]

theorem Placed.mem_partItems (h : Placed score lexicon words f a)
    (hseveral : a.start + 2 ≤ a.stop) : a ∈ partItems score lexicon words f := by
  obtain ⟨i, u, d, hfits, rfl⟩ := h
  have hspan : (i, i + u.length) ∈ Chart.spans words.length :=
    Chart.mem_spans_iff.mpr ⟨hseveral, hfits.stop_le.2⟩
  refine List.mem_flatMap.mpr ⟨_, hspan, List.mem_map.mpr ⟨d, ?_, rfl⟩⟩
  rw [hfits.slice_eq]
  exact mem_parse_iff.mpr hfits.licensed

/-! ## What comes on the agenda -/

/-- After `k` steps: what has come on the agenda besides the leaves, and how much of it all is still
there. -/
structure Ledger (f : Frame α) (leaves : Nat) (pushed taken : List (Item α)) (k : Nat)
    (q : Agenda (Item α)) : Prop where
  joined : ∀ a ∈ pushed, ∃ left ∈ taken, ∃ right ∈ taken, Joined f left right a
  distinct : pushed.Nodup
  balance : k + q.size = leaves + pushed.length

namespace Ledger

variable {leaves k : Nat} {pushed : List (Item α)} {q rest : Agenda (Item α)}

theorem length_le (h : Ledger f leaves pushed taken k q)
    (hplaced : ∀ a ∈ taken, Placed score lexicon words f a) :
    pushed.length ≤ partCount lexicon words := by
  rw [← length_partItems score f]
  refine h.distinct.length_le_of_subset fun a ha => ?_
  obtain ⟨left, hl, right, hr, hnext, p, hp, rfl⟩ := h.joined a ha
  have hl' := hplaced left hl
  have hr' := hplaced right hr
  refine (hl'.parentItem hr' hnext hp).1.mem_partItems ?_
  have hlt := hl'.start_lt_stop
  have hlt' := hr'.start_lt_stop
  simp only [parentItem]
  omega

variable [LT α] [DecidableLT α]

theorem pass (h : Ledger f leaves pushed taken k q)
    (hout : q.remove? Item.before = some (item, rest)) :
    Ledger f leaves pushed taken (k + 1) rest := by
  refine ⟨h.joined, h.distinct, ?_⟩
  have hsize := Agenda.size_of_remove? hout
  have hbalance := h.balance
  omega

theorem take (h : Ledger f leaves pushed taken k q)
    (hplaced : ∀ a ∈ taken ++ [item], Placed score lexicon words f a)
    (htaken : (taken ++ [item]).Nodup) (hout : q.remove? Item.before = some (item, rest)) :
    Ledger f leaves (pushed ++ joins f (taken ++ [item]) item) (taken ++ [item]) (k + 1)
      ((joins f (taken ++ [item]) item).foldl (fun q a => q.insert Item.before a) rest) := by
  have hitem : item ∈ taken ++ [item] := List.mem_append_right _ List.mem_cons_self
  have hold : ∀ a ∈ taken, a ∈ taken ++ [item] := fun a ha => List.mem_append_left _ ha
  refine ⟨fun a ha => ?_, ?_, ?_⟩
  · rcases List.mem_append.mp ha with ha | ha
    · obtain ⟨left, hl, right, hr, hjoined⟩ := h.joined a ha
      exact ⟨left, hold left hl, right, hold right hr, hjoined⟩
    · obtain ⟨left, hl, right, hr, hnext, -, hp⟩ := exists_of_mem_joins hitem ha
      exact ⟨left, hl, right, hr, hnext, hp⟩
  · refine h.distinct.append (nodup_joins hplaced htaken hitem) fun a ha ha' => ?_
    -- what came before is above items taken before, and the new one is none of them
    obtain ⟨left, hl, right, hr, hjoined⟩ := h.joined a ha
    obtain ⟨left', hl', right', hr', hnext, hnew, hp⟩ := exists_of_mem_joins hitem ha'
    obtain ⟨rfl, rfl⟩ := Joined.unique (hplaced left (hold left hl))
      (hplaced right (hold right hr)) (hplaced left' hl') (hplaced right' hr') hjoined ⟨hnext, hp⟩
    have hnotMem : item ∉ taken := fun hmem =>
      (List.nodup_append.mp htaken).2.2 item hmem item List.mem_cons_self rfl
    rcases hnew with rfl | rfl
    · exact hnotMem hl
    · exact hnotMem hr
  · have hsize := Agenda.size_of_remove? hout
    have hbalance := h.balance
    rw [Agenda.size_foldl_insert, List.length_append]
    omega

end Ledger

end

/-! ## The bound -/

section

variable {ε α : Type} [Add α] [Sub α] [Neg α] [Mul α] [OfNat α 0] [OfNat α 1] [LT α]
  [DecidableLT α] {scorer : Scorer ε α} {lexicon : LexicalEntries} {words : List String}

omit [Mul α] [OfNat α 1] [LT α] [DecidableLT α] in
theorem length_leafItems (f : Frame α) :
    (leafItems f (sentenceLeaves scorer.leafScore lexicon 0 words)).length =
      leafCount scorer lexicon words := by
  have hword : ∀ position word, (leavesAt scorer.leafScore lexicon position word).length =
      (lexicon word).countP fun c =>
        (scorer.leafScore position (.leaf c (some word))).isSome := by
    intro position word
    rw [leavesAt, List.length_filterMap_eq_countP]
    simp only [Option.isSome_map]
  have hall : ∀ ls : List (List (Derivation × α)),
      (leafItems f ls).length = (ls.map List.length).sum := by
    intro ls
    have hfirst := congrArg (List.map List.length) (List.zipIdx_map_fst 0 ls)
    rw [List.map_map] at hfirst
    simp only [leafItems, List.length_flatMap, List.length_map, ← hfirst, Function.comp_def]
  rw [hall, sentenceLeaves, List.map_map, leafCount]
  simp only [Function.comp_def, hword]

theorem ledger_start (f : Frame α) :
    Ledger f (leafCount scorer lexicon words) [] [] 0
      (start f (sentenceLeaves scorer.leafScore lexicon 0 words)).agenda := by
  refine ⟨nofun, List.nodup_nil, ?_⟩
  have hperm := Agenda.perm_ofList Item.before
    (leafItems f (sentenceLeaves scorer.leafScore lexicon 0 words))
  rw [List.length_nil, Nat.zero_add, Nat.add_zero, ← length_leafItems f]
  exact hperm.length_eq

/-- The steps that were made and the items that are left are bounded by what can ever come on the
agenda. -/
theorem steps_add_size_le (scorer : Scorer ε α) (lexicon : LexicalEntries) (words : List String)
    {f : Frame α} (hsize : f.size = words.length) (n : Nat) :
    (run f n (start f (sentenceLeaves scorer.leafScore lexicon 0 words))).1.steps +
        (run f n (start f (sentenceLeaves scorer.leafScore lexicon 0 words))).1.agenda.size ≤
      leafCount scorer lexicon words + partCount lexicon words := by
  obtain ⟨taken, -, ⟨hsaturated, pushed, hledger⟩, -⟩ := run_induction_steps
    (P := fun k taken q =>
      Saturated scorer.leafScore lexicon words f (fun _ _ => Alike.one) taken q ∧
        ∃ pushed, Ledger f (leafCount scorer lexicon words) pushed taken k q)
    (fun k taken q item rest ⟨h, pushed, hledger⟩ hout hpass =>
      ⟨h.pass hout hpass fun _ _ _ => le_refl _, pushed, hledger.pass hout⟩)
    (fun k taken q item rest ⟨h, pushed, hledger⟩ hout hpass hopen =>
      have htake := h.take hsize hout hpass hopen
      ⟨htake, _, hledger.take (fun a ha => htake.placed a (.inl ha)) htake.distinct hout⟩)
    n (records_start f _) ⟨saturated_start _ _ _ f _, [], ledger_start f⟩
  have hlength := hledger.length_le fun a ha => hsaturated.placed a (.inl ha)
  have hbalance := hledger.balance
  omega

/-- With as many steps as the bound a run is not cut off. -/
theorem run_snd_of_le {f : Frame α} (hsize : f.size = words.length) {n : Nat}
    (hn : leafCount scorer lexicon words + partCount lexicon words ≤ n) :
    (run f n (start f (sentenceLeaves scorer.leafScore lexicon 0 words))).2 = false := by
  refine Bool.eq_false_iff.mpr fun hcut => ?_
  obtain ⟨hopen, hsteps⟩ := run_of_cut hcut
  have hbound := steps_add_size_le scorer lexicon words hsize n
  have hstart : (start f (sentenceLeaves scorer.leafScore lexicon 0 words)).steps = 0 := rfl
  have hempty := (Bool.or_eq_false_iff.mp hopen).1
  have hpos := Array.size_pos_iff.mpr (Array.isEmpty_eq_false_iff.mp hempty)
  simp only [Agenda.size] at hbound
  omega

/-- A run is cut off just where a whole one makes more steps than it is given. -/
theorem run_snd_iff {f : Frame α} {n m : Nat} {s : State α} (hstart : s.steps = 0)
    (hwhole : (run f m s).2 = false) :
    (run f n s).2 = true ↔ n < (run f m s).1.steps := by
  rcases Nat.lt_or_ge n m with hlt | hle
  · constructor
    · intro hcut
      have hsteps := (run_of_cut hcut).2
      have hmore := steps_run_lt_of_cut hcut hlt
      omega
    · intro hmore
      by_contra hdone
      rw [run_eq_of_le (by simpa using hdone) (Nat.le_of_lt hlt)] at hmore
      have hbound := (steps_run_bounds f n s).2
      omega
  · rw [run_eq_of_le hwhole hle, hwhole]
    have hbound := (steps_run_bounds f m s).2
    simp only [Bool.false_eq_true, false_iff]
    omega

/-- The outcome of a run. -/
def outcomeOf (r : State α × Bool) : Outcome α :=
  ⟨r.1.results.toList, r.1.steps, if r.2 then .gaveUp else .finished⟩

omit [Add α] [Sub α] [Neg α] [Mul α] [OfNat α 0] [OfNat α 1] [LT α] [DecidableLT α] in
theorem ending_outcomeOf_iff (r : State α × Bool) :
    (outcomeOf r).ending = .gaveUp ↔ r.2 = true := by
  cases h : r.2 <;> simp [outcomeOf, h]

theorem ofLeaves_maxSteps (request : Request α) (limit : Int)
    (leaves : List (List (Derivation × α))) :
    ofLeaves { request with maxSteps := limit } leaves =
      outcomeOf (run (frame request leaves) limit.toNat (start (frame request leaves) leaves)) := by
  have hrun := run_maxSteps request limit leaves limit.toNat (start (frame request leaves) leaves)
  rw [← hrun]
  rfl

end

end Search

open Search

/-- **A search ends by itself, and a limit on its steps only cuts it off.** Whatever the numbers
are, the steps of a search are no more than the available leaves and the derivations of all parts of
several words. With this limit or a greater one the outcome is the same and the search does not give
up; with any limit the results are the first ones of those with a greater limit. -/
theorem search_bounded {ε α : Type} [Add α] [Sub α] [Neg α] [Mul α] [OfNat α 0] [OfNat α 1] [LT α]
    [DecidableLT α] (scorer : Scorer ε α) (lexicon : LexicalEntries) (request : Request α)
    (words : List String) (hpenalty : ¬ request.penalty < 0)
    (hanswers : Answers scorer lexicon 0 words) :
    let bound := leafCount scorer lexicon words + partCount lexicon words
    ∃ outcome : Int → Outcome α,
      (∀ limit,
        search scorer lexicon { request with maxSteps := limit } words = .ok (outcome limit)) ∧
      (∀ limit, (outcome limit).steps ≤ bound) ∧
      (∀ limit : Int, bound ≤ limit →
        outcome limit = outcome bound ∧ ∀ k, Event.gaveUp k ∉ (outcome limit).events) ∧
      ∀ limit limit' : Int, limit ≤ limit' →
        (outcome limit).results <+: (outcome limit').results := by
  intro bound
  rcases search_starts hanswers with ⟨ending, hending, hnone⟩ | hstart
  · have hevents : ∀ k, Event.gaveUp k ∉ (⟨[], 0, ending⟩ : Outcome α).events := by
      intro k
      cases ending <;> simp [Outcome.events] at hending ⊢
    refine ⟨fun _ => ⟨[], 0, ending⟩, fun limit => ?_, fun _ => Nat.zero_le _,
      fun _ _ => ⟨rfl, hevents⟩, fun _ _ _ => List.prefix_rfl⟩
    exact (hnone { request with maxSteps := limit } hpenalty).1
  · let f := frame request (sentenceLeaves scorer.leafScore lexicon 0 words)
    let s := start f (sentenceLeaves scorer.leafScore lexicon 0 words)
    have hsize : f.size = words.length := size_sentenceFrame request
    have hdone : (run f bound s).2 = false := run_snd_of_le hsize (Nat.le_refl bound)
    refine ⟨fun limit => outcomeOf (run f limit.toNat s), fun limit => ?_, fun limit => ?_,
      fun limit hlimit => ?_, fun limit limit' hle => ?_⟩
    · rw [hstart { request with maxSteps := limit } hpenalty, ofLeaves_maxSteps]
    · exact Nat.le_of_add_right_le (steps_add_size_le scorer lexicon words hsize limit.toNat)
    · have hrun : run f limit.toNat s = run f bound s := run_eq_of_le hdone (by omega)
      have hevents : ∀ k, Event.gaveUp k ∉ (outcomeOf (run f bound s)).events := by
        intro k
        simp [Outcome.events, outcomeOf, hdone]
      simp only [Int.toNat_natCast, hrun]
      exact ⟨trivial, hevents⟩
    · exact prefix_run_of_le f s (Int.toNat_le_toNat hle)

/-- A word with a category that is listed twice in front of a verb. -/
theorem search_bounded_two_words :
    let lexicon : LexicalEntries := fun w =>
      if w = "fly" then [.backward .s .np] else [.np, .np]
    ∃ outcome : Int → Outcome Int,
      (∀ limit, search (fun _ _ _ => .ok (some 1) : Scorer Unit Int) lexicon ⟨2, limit, 1, none⟩
        ["birds", "fly"] = .ok (outcome limit)) ∧
      (∀ limit, (outcome limit).steps ≤ 4) ∧
      (∀ limit, 4 ≤ limit → outcome limit = outcome 4 ∧
        ∀ k, Event.gaveUp k ∉ (outcome limit).events) ∧
      (outcome 2).results <+: (outcome 3).results := by
  intro lexicon
  obtain ⟨outcome, hsearch, hsteps, hsame, hprefix⟩ := search_bounded
    (fun _ _ _ => .ok (some 1) : Scorer Unit Int) lexicon ⟨2, 0, 1, none⟩ ["birds", "fly"]
    (by decide) fun _ _ _ _ => ⟨_, rfl⟩
  have hleaves : leafCount (fun _ _ _ => .ok (some 1) : Scorer Unit Int) lexicon
      ["birds", "fly"] = 3 := by decide
  have hcut : cutDerivations lexicon ["birds", "fly"] =
      joinAll (cutDerivations lexicon ["birds"]) (cutDerivations lexicon ["fly"]) := by
    rw [Chart.cutDerivations_eq_flatMap lexicon (by decide)]
    exact List.append_nil _
  have hwhole : (cutDerivations lexicon ["birds", "fly"]).length = 1 := by
    rw [hcut, cutDerivations, cutDerivations]
    decide
  have hparts : partCount lexicon ["birds", "fly"] = 1 := by
    have hspans : Chart.spans ["birds", "fly"].length = [(0, 2)] := by decide
    rw [partCount, hspans, List.map_singleton, List.sum_singleton, parse_eq_cutDerivations]
    exact hwhole
  rw [hleaves, hparts] at hsteps hsame
  exact ⟨outcome, hsearch, hsteps, hsame, hprefix 2 3 (by decide)⟩

end Categorial

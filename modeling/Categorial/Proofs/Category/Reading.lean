import Categorial.Proofs.Category.Notation

/-!
# The reader accepts exactly the notation

Reading is a fold over the characters, so each direction is one induction. In one direction, what
the reader does on a phrase of the grammar is followed phrase by phrase, from any state in which the
phrase may start (`run_of_derives`). In the other, `Describes` says which part of the grammar the
characters read so far make up in each state; every step keeps it (`describes_step`).

* `parse_eq_ok_iff_denotes`: the reader answers with a category exactly on the texts of that
  category, and fails on all others; a text has one category at most.
-/

namespace Categorial

namespace Notation

open Reading

/-! ## Texts of the grammar are read -/

theorem step_operand (p : Nat) (o : List Pending) (left : Pending) (a : Char) :
    step ⟨p, o, .operand left⟩ a = stepOperand p o left a :=
  rfl

theorem step_name (p : Nat) (o : List Pending) (left : Pending) (letters : List Char) (a : Char) :
    step ⟨p, o, .name left letters⟩ a = stepName p o left letters a :=
  rfl

theorem step_feature (p : Nat) (o : List Pending) (left : Pending) (letters : List Char)
    (a : Char) : step ⟨p, o, .feature left letters⟩ a = stepFeature p o left letters a :=
  rfl

/-- A category has been read, although its last name may still be open. -/
inductive Holds : Focus → Category → Prop
  | value (c : Category) : Holds (.value c) c
  | name {left : Pending} {letters : List Char} {c : Category}
      (h : named? (spell letters) = some c) : Holds (.name left letters) (attach left c)

/-- A character that ends a name and opens no feature is read as behind a completed category. -/
theorem step_of_holds {φ : Focus} {v : Category} (h : Holds φ v) (p : Nat) (o : List Pending)
    {a : Char} (hletter : isNameLetter a = false) (hopen : a ≠ '[') :
    step ⟨p, o, φ⟩ a = stepValue p o v a := by
  cases h with
  | value => rfl
  | @name left letters c hc =>
    have hclose : closeName p left letters = .ok (attach left c) := by
      rw [closeName, hc]
    rw [step_name, stepName, hletter, hclose]
    simp [hopen, bind, Except.bind]

theorem finish_of_holds {φ : Focus} {v : Category} (h : Holds φ v) (p : Nat) :
    finish ⟨p, [], φ⟩ = .ok v := by
  cases h with
  | value => rfl
  | @name left letters c hc =>
    have hclose : closeName p left letters = .ok (attach left c) := by
      rw [closeName, hc]
    simp [finish, hclose, finishValue, bind, Except.bind]

theorem isNameLetter_of_isBlank {a : Char} (h : Text.isBlank a = true) :
    isNameLetter a = false ∧ a ≠ '[' := by
  constructor
  · refine Bool.eq_false_iff.mpr fun hletter => ?_
    simp only [isNameLetter, Bool.and_eq_true, decide_eq_true_eq, Char.le_def,
      UInt32.le_iff_toNat_le] at hletter
    have hA : ('A' : Char).val.toNat = 65 := rfl
    have hZ : ('Z' : Char).val.toNat = 90 := rfl
    simp only [Text.isBlank, Char.toNat, Bool.or_eq_true, Bool.and_eq_true, decide_eq_true_eq,
      beq_iff_eq] at h
    omega
  · rintro rfl
    exact absurd h (by decide)

theorem run_step {s t u : State} {c : Char} {cs : List Char} (hstep : step s c = .ok t)
    (hrun : run t cs = .ok u) : run s (c :: cs) = .ok u := by
  rw [run_cons, hstep]
  exact hrun

theorem run_trans {s t u : State} {cs ds : List Char} (hcs : run s cs = .ok t)
    (hds : run t ds = .ok u) : run s (cs ++ ds) = .ok u := by
  rw [run_append, hcs]
  exact hds

theorem run_blanks_operand {s : List Char} (hs : Blanks s) (p : Nat) (o : List Pending)
    (left : Pending) :
    run ⟨p, o, .operand left⟩ s = .ok ⟨p + s.length, o, .operand left⟩ := by
  induction s generalizing p with
  | nil => rfl
  | cons a s ih =>
    have hstep : step ⟨p, o, .operand left⟩ a = .ok ⟨p + 1, o, .operand left⟩ := by
      rw [step_operand, stepOperand, if_pos (hs a List.mem_cons_self)]
    have hrun := ih (fun c hc => hs c (List.mem_cons_of_mem a hc)) (p + 1)
    rw [List.length_cons, Nat.add_comm s.length 1, ← Nat.add_assoc]
    exact run_step hstep hrun

theorem run_blanks_of_holds {s : List Char} (hs : Blanks s) {φ : Focus} {v : Category}
    (h : Holds φ v) (p : Nat) (o : List Pending) :
    ∃ φ', run ⟨p, o, φ⟩ s = .ok ⟨p + s.length, o, φ'⟩ ∧ Holds φ' v := by
  induction s generalizing p φ with
  | nil => exact ⟨φ, rfl, h⟩
  | cons a s ih =>
    have ha := hs a List.mem_cons_self
    obtain ⟨hletter, hopen⟩ := isNameLetter_of_isBlank ha
    have hstep : step ⟨p, o, φ⟩ a = .ok ⟨p + 1, o, .value v⟩ := by
      rw [step_of_holds h p o hletter hopen, stepValue.eq_def, if_pos ha]
    obtain ⟨φ', hrun, hφ'⟩ := ih (fun c hc => hs c (List.mem_cons_of_mem a hc)) (.value v) (p + 1)
    refine ⟨φ', ?_, hφ'⟩
    rw [List.length_cons, Nat.add_comm s.length 1, ← Nat.add_assoc]
    exact run_step hstep hrun

theorem run_letters {ls : List Char} (hls : ∀ l ∈ ls, isNameLetter l = true) (p : Nat)
    (o : List Pending) (left : Pending) (acc : List Char) :
    run ⟨p, o, .name left acc⟩ ls = .ok ⟨p + ls.length, o, .name left (ls.reverse ++ acc)⟩ := by
  induction ls generalizing p acc with
  | nil => rfl
  | cons l ls ih =>
    have hstep : step ⟨p, o, .name left acc⟩ l = .ok ⟨p + 1, o, .name left (l :: acc)⟩ := by
      rw [step_name, stepName, if_pos (hls l List.mem_cons_self)]
    have hrun := ih (fun c hc => hls c (List.mem_cons_of_mem l hc)) (p + 1) (l :: acc)
    rw [List.length_cons, Nat.add_comm ls.length 1, ← Nat.add_assoc, List.reverse_cons,
      List.append_assoc]
    exact run_step hstep hrun

theorem run_feature_letters {ls : List Char} (hls : ∀ l ∈ ls, isFeatureLetter l = true) (p : Nat)
    (o : List Pending) (left : Pending) (acc : List Char) :
    run ⟨p, o, .feature left acc⟩ ls =
      .ok ⟨p + ls.length, o, .feature left (ls.reverse ++ acc)⟩ := by
  induction ls generalizing p acc with
  | nil => rfl
  | cons l ls ih =>
    have hstep : step ⟨p, o, .feature left acc⟩ l = .ok ⟨p + 1, o, .feature left (l :: acc)⟩ := by
      rw [step_feature, stepFeature, if_pos (hls l List.mem_cons_self)]
    have hrun := ih (fun c hc => hls c (List.mem_cons_of_mem l hc)) (p + 1) (l :: acc)
    rw [List.length_cons, Nat.add_comm ls.length 1, ← Nat.add_assoc, List.reverse_cons,
      List.append_assoc]
    exact run_step hstep hrun

theorem step_operand_letter {l : Char} (hl : isNameLetter l = true) (p : Nat) (o : List Pending)
    (left : Pending) :
    step ⟨p, o, .operand left⟩ l = .ok ⟨p + 1, o, .name left [l]⟩ := by
  have hblank : ¬ Text.isBlank l = true := by
    intro hblank
    rw [(isNameLetter_of_isBlank hblank).1] at hl
    cases hl
  have hopen : l ≠ '(' := by
    rintro rfl
    exact absurd hl (by decide)
  rw [step_operand, stepOperand, if_neg hblank, if_neg hopen, if_pos hl]

theorem run_name {ls : List Char} (hls : ∀ l ∈ ls, isNameLetter l = true) (hne : ls ≠ [])
    (p : Nat) (o : List Pending) (left : Pending) :
    run ⟨p, o, .operand left⟩ ls = .ok ⟨p + ls.length, o, .name left ls.reverse⟩ := by
  cases ls with
  | nil => exact absurd rfl hne
  | cons l ls =>
    have hstep := step_operand_letter (hls l List.mem_cons_self) p o left
    have hrun := run_letters (fun c hc => hls c (List.mem_cons_of_mem l hc)) (p + 1) o left [l]
    rw [List.length_cons, Nat.add_comm ls.length 1, ← Nat.add_assoc, List.reverse_cons]
    exact run_step hstep hrun

theorem run_atom {t : List Char} {c : Category} (h : AtomSign t c) (p : Nat) (o : List Pending)
    (left : Pending) :
    ∃ φ, run ⟨p, o, .operand left⟩ t = .ok ⟨p + t.length, o, φ⟩ ∧ Holds φ (attach left c) := by
  cases h with
  | var => exact ⟨.name left ['X'], rfl, .name rfl⟩
  | symbol b =>
    refine ⟨.name left b.symbol.toList.reverse,
      run_name (fun _ => isNameLetter_of_mem_symbol) (symbol_ne_empty b) p o left, .name ?_⟩
    rw [spell, List.reverse_reverse, String.ofList_toList, named?_symbol]
  | clause f hf =>
    refine ⟨.value (attach left (.atom (.clause f))), ?_, .value _⟩
    have hopen : run ⟨p, o, .operand left⟩ ['S', '['] = .ok ⟨p + 1 + 1, o, .feature left []⟩ := rfl
    have hletters := run_feature_letters
      (fun (l : Char) (hl : l ∈ f.symbol.toList) => isFeatureLetter_of_mem_symbol hl)
      (p + 1 + 1) o left []
    have hspell : spell f.symbol.toList.reverse = f.symbol := by
      rw [spell, List.reverse_reverse, String.ofList_toList]
    have hclose : step ⟨p + 1 + 1 + f.symbol.toList.length, o,
        .feature left (f.symbol.toList.reverse ++ [])⟩ ']' =
        .ok ⟨p + 1 + 1 + f.symbol.toList.length + 1, o,
          .value (attach left (.atom (.clause f)))⟩ := by
      rw [List.append_nil]
      simp [step, stepFeature, closeFeature, hspell, ofSymbol?_symbol hf, isFeatureLetter, bind,
        Except.bind]
    have hall := run_trans hopen (run_trans hletters (run_step hclose (run_nil _)))
    have hlen : p + ('S' :: '[' :: (f.symbol.toList ++ [']'])).length =
        p + 1 + 1 + f.symbol.toList.length + 1 := by
      simp only [List.length_cons, List.length_append, List.length_nil]
      omega
    rw [hlen]
    exact hall

/-- A slash that is followed by a modality and a term leads to the term. -/
theorem run_modality {m u : List Char} {k : Modality} {x : Category} (hm : ModalitySign m k)
    (hu : Derives .term u x) (p : Nat) (o : List Pending) (r : Category) (d : Direction) :
    run ⟨p, o, .slash r d⟩ (m ++ u) =
      run ⟨p + m.length, o, .operand (some (r, ⟨d, k⟩))⟩ u := by
  match m, hm with
  | _, .angles => rfl
  | [], .bare =>
    obtain ⟨a, u, rfl, ha⟩ := hu.term_head
    have hstep : step ⟨p, o, .slash r d⟩ a =
        step ⟨p, o, .operand (some (r, ⟨d, .permissive⟩))⟩ a := by
      simp only [step]
      rw [if_neg ha.ne_angle, ha.modality?_eq_none]
    rw [List.nil_append, List.length_nil, Nat.add_zero, run_cons, run_cons, hstep]
  | [a], hm =>
    have hstep : step ⟨p, o, .slash r d⟩ a = .ok ⟨p + 1, o, .operand (some (r, ⟨d, k⟩))⟩ := by
      have hmodality := modalitySign_singleton_iff.mp hm
      have hne : a ≠ '<' := by
        rintro rfl
        cases hmodality
      simp only [step]
      rw [if_neg hne, hmodality]
    rw [List.singleton_append, run_cons, hstep]
    rfl

/-- What the reader does on a phrase, wherever the phrase may stand. -/
def ReadsPhrase : Level → List Char → Category → Prop
  | .expression, t, c => ∀ (p : Nat) (o : List Pending),
      ∃ φ, run ⟨p, o, .operand none⟩ t = .ok ⟨p + t.length, o, φ⟩ ∧ Holds φ c
  | .term, t, c => ∀ (p : Nat) (o : List Pending) (left : Pending),
      ∃ φ, run ⟨p, o, .operand left⟩ t = .ok ⟨p + t.length, o, φ⟩ ∧ Holds φ (attach left c)

theorem step_slash {φ : Focus} {r : Category} {a : Char} {d : Direction} (hφ : Holds φ r)
    (ha : SlashSign a d) (p : Nat) (o : List Pending) :
    step ⟨p, o, φ⟩ a = .ok ⟨p + 1, o, .slash r d⟩ := by
  have hletter : isNameLetter a = false ∧ a ≠ '[' := by cases ha <;> decide
  have hblank : ¬ Text.isBlank a = true := by cases ha <;> decide
  rw [step_of_holds hφ _ _ hletter.1 hletter.2, stepValue.eq_def, if_neg hblank,
    slashSign_iff.mp ha]

theorem step_close {φ : Focus} {c : Category} (hφ : Holds φ c) (p : Nat) (o : List Pending)
    (left : Pending) :
    step ⟨p, left :: o, φ⟩ ')' = .ok ⟨p + 1, o, .value (attach left c)⟩ := by
  rw [step_of_holds hφ _ _ (by decide) (by decide)]
  rfl

/-- The reader follows the grammar, by induction on the derivation of the text. -/
theorem run_of_derives {level : Level} {t : List Char} {c : Category}
    (h : Derives level t c) : ReadsPhrase level t c := by
  induction h with
  | single _ ih => exact fun p o => ih p o none
  | @functor t s m u r x a d k ht hs ha hm hu iht ihu =>
    intro p o
    obtain ⟨φ, hrun, hφ⟩ := iht p o
    obtain ⟨φ', hblanks, hφ'⟩ := run_blanks_of_holds hs hφ (p + t.length) o
    have hslash := step_slash hφ' ha (p + t.length + s.length) o
    obtain ⟨φ'', hterm, hφ''⟩ :=
      ihu (p + t.length + s.length + 1 + m.length) o (some (r, ⟨d, k⟩))
    refine ⟨φ'', ?_, hφ''⟩
    have hmodality := (run_modality hm hu (p + t.length + s.length + 1) o r d).trans hterm
    have hall := run_trans hrun (run_trans hblanks (run_step hslash hmodality))
    have hlen : p + (t ++ (s ++ a :: (m ++ u))).length =
        p + t.length + s.length + 1 + m.length + u.length := by
      simp only [List.length_cons, List.length_append]
      omega
    rw [hlen]
    exact hall
  | @group s t s' c hs ht hs' iht =>
    intro p o left
    have hopen : step ⟨p + s.length, o, .operand left⟩ '(' =
        .ok ⟨p + s.length + 1, left :: o, .operand none⟩ := rfl
    obtain ⟨φ, hrun, hφ⟩ := iht (p + s.length + 1) (left :: o)
    obtain ⟨φ', hblanks, hφ'⟩ :=
      run_blanks_of_holds hs' hφ (p + s.length + 1 + t.length) (left :: o)
    have hclose := step_close hφ' (p + s.length + 1 + t.length + s'.length) o left
    refine ⟨.value (attach left c), ?_, .value _⟩
    have hall := run_trans (run_blanks_operand hs p o left) (run_step hopen
      (run_trans hrun (run_trans hblanks (run_step hclose (run_nil _)))))
    have hlen : p + (s ++ '(' :: (t ++ (s' ++ [')']))).length =
        p + s.length + 1 + t.length + s'.length + 1 := by
      simp only [List.length_cons, List.length_append, List.length_nil]
      omega
    rw [hlen]
    exact hall
  | @atom s t c hs ht =>
    intro p o left
    obtain ⟨φ, hrun, hφ⟩ := run_atom ht (p + s.length) o left
    refine ⟨φ, ?_, hφ⟩
    rw [List.length_append, ← Nat.add_assoc]
    exact run_trans (run_blanks_operand hs p o left) hrun

theorem read_of_denotes {cs : List Char} {c : Category} (h : Denotes cs c) :
    Reading.read cs = .ok c := by
  obtain ⟨t, s, rfl, ht, hs⟩ := h
  obtain ⟨φ, hrun, hφ⟩ := run_of_derives ht 0 []
  obtain ⟨φ', hblanks, hφ'⟩ := run_blanks_of_holds hs hφ (0 + t.length) []
  rw [Reading.read, start, run_trans hrun hblanks]
  exact finish_of_holds hφ' _

/-! ## Texts that are read belong to the grammar -/

/-- What has been read in front of the innermost open bracket, it included. -/
inductive Enclosing : List Pending → List Char → Prop
  | nil : Enclosing [] []
  | cons {o : List Pending} {left : Pending} {t u s : List Char} (ht : Enclosing o t)
      (hu : Before left u) (hs : Blanks s) : Enclosing (left :: o) (t ++ (u ++ (s ++ ['('])))

/-- What has been read behind the innermost open bracket. -/
inductive Within : Focus → List Char → Prop
  | operand {left : Pending} {u s : List Char} (hu : Before left u) (hs : Blanks s) :
      Within (.operand left) (u ++ s)
  | slash {t s : List Char} {r : Category} {a : Char} {d : Direction}
      (ht : Derives .expression t r) (hs : Blanks s) (ha : SlashSign a d) :
      Within (.slash r d) (t ++ (s ++ [a]))
  | angle {t s : List Char} {r : Category} {a : Char} {d : Direction}
      (ht : Derives .expression t r) (hs : Blanks s) (ha : SlashSign a d) :
      Within (.angle r d) (t ++ (s ++ [a, '<']))
  | name {left : Pending} {u s letters : List Char} (hu : Before left u) (hs : Blanks s) :
      Within (.name left letters) (u ++ (s ++ letters.reverse))
  | feature {left : Pending} {u s letters : List Char} (hu : Before left u) (hs : Blanks s) :
      Within (.feature left letters) (u ++ (s ++ 'S' :: '[' :: letters.reverse))
  | value {t s : List Char} {c : Category} (ht : Derives .expression t c) (hs : Blanks s) :
      Within (.value c) (t ++ s)

/-- The state describes the characters read. -/
def Describes (s : State) (cs : List Char) : Prop :=
  s.position = cs.length ∧ ∃ t u, cs = t ++ u ∧ Enclosing s.opened t ∧ Within s.focus u

theorem Describes.intro {p : Nat} {o : List Pending} {φ : Focus} {cs t u : List Char} {a : Char}
    (hp : p = cs.length) (hcs : cs ++ [a] = t ++ u) (ht : Enclosing o t) (hu : Within φ u) :
    Describes ⟨p + 1, o, φ⟩ (cs ++ [a]) := by
  refine ⟨?_, t, u, hcs, ht, hu⟩
  rw [List.length_append, hp]
  rfl

theorem describes_stepOperand {p : Nat} {o : List Pending} {left : Pending} {cs t u s : List Char}
    {a : Char} {st : State} (hp : p = cs.length) (hcs : cs = t ++ (u ++ s)) (ht : Enclosing o t)
    (hu : Before left u) (hs : Blanks s) (hstep : stepOperand p o left a = .ok st) :
    Describes st (cs ++ [a]) := by
  unfold stepOperand at hstep
  split at hstep
  · next hblank =>
    cases hstep
    exact .intro hp (by rw [hcs]; simp) ht (.operand hu (hs.concat hblank))
  · split at hstep
    · next hopen =>
      cases hstep
      refine .intro hp ?_ (.cons ht hu hs) (.operand .none blanks_nil)
      rw [hcs, hopen]
      simp
    · split at hstep
      · cases hstep
        refine .intro hp ?_ ht (.name hu hs)
        rw [hcs]
        simp
      · cases hstep

theorem describes_stepValue {p : Nat} {o : List Pending} {v : Category} {cs t u s : List Char}
    {a : Char} {st : State} (hp : p = cs.length) (hcs : cs = t ++ (u ++ s)) (ht : Enclosing o t)
    (hu : Derives .expression u v) (hs : Blanks s) (hstep : stepValue p o v a = .ok st) :
    Describes st (cs ++ [a]) := by
  unfold stepValue at hstep
  split at hstep
  · next hblank =>
    cases hstep
    exact .intro hp (by rw [hcs]; simp) ht (.value hu (hs.concat hblank))
  · split at hstep
    · next d hd =>
      cases hstep
      refine .intro hp ?_ ht (.slash hu hs (slashSign_iff.mpr hd))
      rw [hcs]
      simp
    · split at hstep
      · cases hstep
      · next left o' =>
        split at hstep
        · next hclose =>
          cases hstep
          obtain _ | ⟨ht', hbefore, hs'⟩ := ht
          refine .intro hp ?_ ht' (.value (.attach hbefore (.group hs' hu hs)) blanks_nil)
          rw [hcs, hclose]
          simp
        · cases hstep

theorem derives_of_closeName {p : Nat} {left : Pending} {letters u s : List Char} {v : Category}
    (hu : Before left u) (hs : Blanks s) (h : closeName p left letters = .ok v) :
    Derives .expression (u ++ (s ++ letters.reverse)) v := by
  unfold closeName at h
  split at h
  · next c hc =>
    cases h
    exact .attach hu (.atom hs (atomSign_of_named? hc))
  · cases h

theorem describes_stepName {p : Nat} {o : List Pending} {left : Pending}
    {cs t u s letters : List Char} {a : Char} {st : State} (hp : p = cs.length)
    (hcs : cs = t ++ (u ++ (s ++ letters.reverse))) (ht : Enclosing o t) (hu : Before left u)
    (hs : Blanks s) (hstep : stepName p o left letters a = .ok st) :
    Describes st (cs ++ [a]) := by
  unfold stepName at hstep
  split at hstep
  · cases hstep
    exact .intro hp (by rw [hcs]; simp) ht (.name hu hs)
  · cases hclose : closeName p left letters with
    | error e =>
      rw [hclose] at hstep
      cases hstep
    | ok v =>
      rw [hclose] at hstep
      simp only [bind, Except.bind] at hstep
      split at hstep
      · next hopen =>
        split at hstep
        · next hS =>
          cases hstep
          have ha : a = '[' := by simpa using (Bool.and_eq_true_iff.mp hopen).1
          refine .intro hp ?_ ht (.feature hu hs)
          rw [hcs, hS, ha]
          simp
        · cases hstep
      · refine describes_stepValue hp ?_ ht (derives_of_closeName hu hs hclose) blanks_nil hstep
        rw [hcs, List.append_nil]

theorem describes_stepFeature {p : Nat} {o : List Pending} {left : Pending}
    {cs t u s letters : List Char} {a : Char} {st : State} (hp : p = cs.length)
    (hcs : cs = t ++ (u ++ (s ++ 'S' :: '[' :: letters.reverse))) (ht : Enclosing o t)
    (hu : Before left u) (hs : Blanks s) (hstep : stepFeature p o left letters a = .ok st) :
    Describes st (cs ++ [a]) := by
  unfold stepFeature at hstep
  split at hstep
  · cases hstep
    exact .intro hp (by rw [hcs]; simp) ht (.feature hu hs)
  · unfold closeFeature at hstep
    cases hf : ClauseForm.ofSymbol? (spell letters) with
    | none =>
      rw [hf] at hstep
      cases hstep
    | some f =>
      rw [hf] at hstep
      simp only [bind, Except.bind] at hstep
      split at hstep
      · next ha =>
        cases hstep
        obtain ⟨hsymbol, hform⟩ := symbol_of_ofSymbol? hf
        have hletters : letters.reverse = f.symbol.toList := by
          rw [hsymbol, spell, String.toList_ofList]
        have hclause := Derives.attach hu (.atom hs (.clause f hform))
        refine .intro hp ?_ ht (.value hclause blanks_nil)
        rw [hcs, ha, hletters]
        simp
      · cases hstep

/-- Every step of the reader goes on describing what has been read. -/
theorem describes_step {s s' : State} {cs : List Char} {a : Char} (h : Describes s cs)
    (hstep : step s a = .ok s') : Describes s' (cs ++ [a]) := by
  obtain ⟨p, o, φ⟩ := s
  obtain ⟨hp, t, u, hcs, ht, hu⟩ := h
  simp only at hp ht hu
  cases hu with
  | operand hu hs => exact describes_stepOperand hp hcs ht hu hs hstep
  | name hu hs => exact describes_stepName hp hcs ht hu hs hstep
  | feature hu hs => exact describes_stepFeature hp hcs ht hu hs hstep
  | value hu hs => exact describes_stepValue hp hcs ht hu hs hstep
  | @slash t' s r b d hr hs hb =>
    simp only [step] at hstep
    split at hstep
    · next hangle =>
      cases hstep
      refine .intro hp ?_ ht (.angle hr hs hb)
      rw [hcs, hangle]
      simp
    · split at hstep
      · next k hk =>
        cases hstep
        have hbefore := Before.some hr hs hb (modalitySign_singleton_iff.mpr hk)
        refine .intro hp ?_ ht (.operand hbefore blanks_nil)
        rw [hcs]
        simp
      · refine describes_stepOperand hp ?_ ht (.some hr hs hb .bare) blanks_nil hstep
        rw [hcs, List.append_nil]
  | @angle t' s r b d hr hs hb =>
    simp only [step] at hstep
    split at hstep
    · next hangle =>
      cases hstep
      refine .intro hp ?_ ht (.operand (.some hr hs hb .angles) blanks_nil)
      rw [hcs, hangle]
      simp
    · cases hstep

theorem describes_run {ds : List Char} {s s' : State} {cs : List Char} (h : Describes s cs)
    (hrun : run s ds = .ok s') : Describes s' (cs ++ ds) := by
  induction ds generalizing s cs with
  | nil =>
    cases hrun
    rwa [List.append_nil]
  | cons a ds ih =>
    rw [run_cons] at hrun
    cases hstep : step s a with
    | error e =>
      rw [hstep] at hrun
      cases hrun
    | ok t =>
      rw [hstep] at hrun
      have := ih (describes_step h hstep) hrun
      rwa [List.append_assoc] at this

theorem describes_start : Describes start [] :=
  ⟨rfl, [], [], rfl, .nil, .operand (s := []) .none blanks_nil⟩

theorem denotes_of_finish {s : State} {cs : List Char} {c : Category} (h : Describes s cs)
    (hfinish : finish s = .ok c) : Denotes cs c := by
  obtain ⟨p, o, φ⟩ := s
  obtain ⟨-, t, u, rfl, ht, hu⟩ := h
  simp only at ht hu
  cases hu with
  | operand | slash | angle => cases hfinish
  | feature =>
    simp only [finish, bind, Except.bind] at hfinish
    split at hfinish <;> cases hfinish
  | name hu hs =>
    simp only [finish, bind, Except.bind] at hfinish
    split at hfinish
    · cases hfinish
    · next v hclose =>
      cases ht with
      | nil =>
        cases hfinish
        exact ⟨_, [], (List.append_nil _).symm, derives_of_closeName hu hs hclose, blanks_nil⟩
      | cons => cases hfinish
  | value hu hs =>
    cases ht with
    | nil =>
      cases hfinish
      exact ⟨_, _, List.nil_append _, hu, hs⟩
    | cons => cases hfinish

theorem denotes_of_read {cs : List Char} {c : Category} (h : Reading.read cs = .ok c) :
    Denotes cs c := by
  rw [Reading.read] at h
  cases hrun : run start cs with
  | error e =>
    rw [hrun] at h
    cases h
  | ok s =>
    rw [hrun] at h
    exact denotes_of_finish (describes_run describes_start hrun) h

theorem read_eq_ok_iff {cs : List Char} {c : Category} :
    Reading.read cs = .ok c ↔ Denotes cs c :=
  ⟨denotes_of_read, read_of_denotes⟩

/-- **The reader accepts exactly the notation.** A text is read as a category if and only if it is
a text of that category in the grammar; it is refused if and only if it is a text of none; and no
text has two categories. -/
theorem parse_eq_ok_iff_denotes (text : String) :
    (∀ c, Category.parse text = .ok c ↔ Denotes text.toList c) ∧
      ((∃ e, Category.parse text = .error e) ↔ ∀ c, ¬ Denotes text.toList c) ∧
      (∀ c c', Denotes text.toList c → Denotes text.toList c' → c = c') := by
  have hok : ∀ c, Category.parse text = .ok c ↔ Denotes text.toList c := by
    intro c
    rw [← read_eq_ok_iff, Category.parse]
    cases Reading.read text.toList <;> simp
  refine ⟨hok, ?_, ?_⟩
  · constructor
    · rintro ⟨e, he⟩ c hc
      rw [(hok c).mpr hc] at he
      cases he
    · intro hnone
      cases hparse : Category.parse text with
      | error e => exact ⟨e, rfl⟩
      | ok c => exact absurd ((hok c).mp hparse) (hnone c)
  · intro c c' hc hc'
    have h := (hok c).mpr hc
    rw [(hok c').mpr hc'] at h
    cases h
    rfl

end Notation

end Categorial

import Categorial.Proofs.Category.Reading

/-!
# Where reading a category fails

The reader describes what it has read as a part of the grammar (`Notation.Describes`), and each such
part can be completed: a missing operand by the variable, an open feature by its letters, and the
open brackets one after the other from the inside. So there is nothing wrong with what stands in
front of the place of a failure. That place lies behind the last step that went well, or in front of
the name, the letters of a feature or the angle bracket that came to their end there.

* `viable_of_derives`, `viable_of_before`, `viable_of_feature`: what can be completed.
* `locates_step`, `locates_finish`: one step, and the end of the text.
* `viable_of_parse_error`: the text in front of the place of a failure.
-/

namespace Categorial

namespace Notation

open Reading

/-- Something can be put behind the characters so that they start a text of a category. -/
def Viable (cs : List Char) : Prop :=
  ∃ ds c, Denotes (cs ++ ds) c

theorem Viable.of_append {cs ds : List Char} (h : Viable (cs ++ ds)) : Viable cs := by
  obtain ⟨es, c, hc⟩ := h
  exact ⟨ds ++ es, c, by rwa [← List.append_assoc]⟩

/-! ## Parts of the grammar that can be completed -/

variable {o : List Pending} {left : Pending} {t u s : List Char}

/-- Behind an expression the open brackets are closed, by induction on them. -/
theorem viable_of_derives {v : Category} (ht : Enclosing o t) (hu : Derives .expression u v)
    (hs : Blanks s) : Viable (t ++ (u ++ s)) := by
  induction ht generalizing u s v with
  | nil => exact ⟨[], v, u, s, by simp, hu, hs⟩
  | @cons _ left t b s' _ hb hs' ih =>
    have hgroup : Derives .expression (b ++ (s' ++ '(' :: (u ++ (s ++ [')'])))) (attach left v) :=
      .attach hb (.group hs' hu hs)
    have hclosed : Viable ((t ++ (b ++ (s' ++ ['('])) ++ (u ++ s)) ++ [')']) := by
      simpa only [List.append_assoc, List.cons_append, List.nil_append, List.append_nil]
        using ih hgroup blanks_nil
    exact hclosed.of_append

theorem viable_of_before (ht : Enclosing o t) (hu : Before left u) (hs : Blanks s) :
    Viable (t ++ (u ++ s)) := by
  have hoperand : Derives .expression (u ++ (s ++ ['X'])) (attach left .var) :=
    .attach hu (.atom hs .var)
  have hviable : Viable ((t ++ (u ++ s)) ++ ['X']) := by
    simpa only [List.append_assoc, List.append_nil] using viable_of_derives ht hoperand blanks_nil
  exact hviable.of_append

theorem viable_of_slash {r : Category} {b : Char} {d : Direction} (ht : Enclosing o t)
    (hu : Derives .expression u r) (hs : Blanks s) (hb : SlashSign b d) :
    Viable (t ++ (u ++ (s ++ [b]))) := by
  have hviable := viable_of_before ht (.some hu hs hb .bare) blanks_nil
  rwa [List.append_nil] at hviable

/-- The letters of a feature may be cut off at any place. -/
theorem viable_of_feature {f : ClauseForm} {front behind : List Char} (ht : Enclosing o t)
    (hu : Before left u) (hs : Blanks s) (hf : f ≠ .bareInfinitive)
    (hcut : f.symbol.toList = front ++ behind) :
    Viable (t ++ (u ++ (s ++ 'S' :: '[' :: front))) := by
  have hclause : Derives .expression (u ++ (s ++ 'S' :: '[' :: (f.symbol.toList ++ [']'])))
      (attach left (.atom (.clause f))) :=
    .attach hu (.atom hs (.clause f hf))
  have hviable : Viable ((t ++ (u ++ (s ++ 'S' :: '[' :: front))) ++ (behind ++ [']'])) := by
    simpa only [hcut, List.append_assoc, List.cons_append, List.append_nil]
      using viable_of_derives ht hclause blanks_nil
  exact hviable.of_append

/-! ## Places of failures -/

/-- The place of the failure is one of the text, and what stands in front of it is viable. -/
def Locates (cs : List Char) (f : Fault) : Prop :=
  f.position ≤ cs.length ∧ Viable (cs.take f.position)

theorem Locates.intro {cs front behind : List Char} {f : Fault} (hcs : cs = front ++ behind)
    (hposition : f.position = front.length) (hfront : Viable front) : Locates cs f := by
  subst hcs
  rw [Locates, hposition, List.take_left, List.length_append]
  exact ⟨Nat.le_add_right _ _, hfront⟩

theorem Locates.here {cs : List Char} {f : Fault} (hposition : f.position = cs.length)
    (hcs : Viable cs) : Locates cs f :=
  .intro (List.append_nil cs).symm hposition hcs

theorem Locates.append {cs : List Char} {f : Fault} (h : Locates cs f) (ds : List Char) :
    Locates (cs ++ ds) f := by
  obtain ⟨hposition, hviable⟩ := h
  refine ⟨?_, ?_⟩
  · rw [List.length_append]
    exact Nat.le_add_right_of_le hposition
  · rwa [List.take_append_of_le_length hposition]

variable {p : Nat} {cs : List Char} {a : Char} {f : Fault}

theorem locates_stepOperand (hp : p = cs.length) (hcs : Viable cs)
    (hstep : stepOperand p o left a = .error f) : Locates cs f := by
  unfold stepOperand at hstep
  split at hstep
  · cases hstep
  · split at hstep
    · cases hstep
    · split at hstep <;> cases hstep
      exact .here hp hcs

theorem locates_stepValue {v : Category} (hp : p = cs.length) (hcs : Viable cs)
    (hstep : stepValue p o v a = .error f) : Locates cs f := by
  unfold stepValue at hstep
  split at hstep
  · cases hstep
  · split at hstep
    · cases hstep
    · split at hstep
      · cases hstep
        exact .here hp hcs
      · split at hstep <;> cases hstep
        exact .here hp hcs

/-- A name that stands for nothing is refused where it starts. -/
theorem locates_closeName {letters : List Char} (hp : p = cs.length)
    (hcs : cs = t ++ (u ++ (s ++ letters.reverse))) (ht : Enclosing o t) (hu : Before left u)
    (hs : Blanks s) (hclose : closeName p left letters = .error f) : Locates cs f := by
  unfold closeName at hclose
  split at hclose
  · cases hclose
  · cases hclose
    have hcut : cs = (t ++ (u ++ s)) ++ letters.reverse := by simp [hcs]
    refine .intro hcut ?_ (viable_of_before ht hu hs)
    simp only [hp, hcs, List.length_append, List.length_reverse]
    omega

theorem viable_of_closeName {letters : List Char} {v : Category}
    (hcs : cs = t ++ (u ++ (s ++ letters.reverse))) (ht : Enclosing o t) (hu : Before left u)
    (hs : Blanks s) (hclose : closeName p left letters = .ok v) : Viable cs := by
  have hviable := viable_of_derives ht (derives_of_closeName hu hs hclose) blanks_nil
  rwa [List.append_nil, ← hcs] at hviable

/-- Letters that are no feature are refused where they start. -/
theorem locates_closeFeature {letters : List Char} (hp : p = cs.length)
    (hcs : cs = t ++ (u ++ (s ++ 'S' :: '[' :: letters.reverse))) (ht : Enclosing o t)
    (hu : Before left u) (hs : Blanks s) (hclose : closeFeature p letters = .error f) :
    Locates cs f := by
  unfold closeFeature at hclose
  split at hclose
  · cases hclose
  · cases hclose
    have hcut : cs = (t ++ (u ++ (s ++ ['S', '[']))) ++ letters.reverse := by simp [hcs]
    refine .intro hcut ?_ (viable_of_feature (f := .declarative) ht hu hs nofun rfl)
    simp only [hp, hcs, List.length_append, List.length_cons, List.length_nil, List.length_reverse]
    omega

theorem viable_of_closeFeature {letters : List Char} {form : ClauseForm}
    (hcs : cs = t ++ (u ++ (s ++ 'S' :: '[' :: letters.reverse))) (ht : Enclosing o t)
    (hu : Before left u) (hs : Blanks s) (hclose : closeFeature p letters = .ok form) :
    Viable cs := by
  unfold closeFeature at hclose
  split at hclose
  · next hform =>
    cases hclose
    obtain ⟨hsymbol, hne⟩ := symbol_of_ofSymbol? hform
    have hletters : form.symbol.toList = letters.reverse ++ [] := by
      rw [hsymbol, spell, String.toList_ofList, List.append_nil]
    exact hcs ▸ viable_of_feature ht hu hs hne hletters
  · cases hclose

/-- An angle bracket that is no modality is refused itself. -/
theorem locates_angle {r : Category} {b : Char} {d : Direction} {cause : ReadCause}
    (hp : p = (t ++ (u ++ (s ++ [b, '<']))).length) (ht : Enclosing o t)
    (hu : Derives .expression u r) (hs : Blanks s) (hb : SlashSign b d) :
    Locates (t ++ (u ++ (s ++ [b, '<']))) ⟨cause, p - 1⟩ := by
  have hcut : t ++ (u ++ (s ++ [b, '<'])) = (t ++ (u ++ (s ++ [b]))) ++ ['<'] := by simp
  refine .intro hcut ?_ (viable_of_slash ht hu hs hb)
  simp only [hp, List.length_append, List.length_cons, List.length_nil]
  omega

/-! ## The reader -/

/-- A step that fails leaves what has been read so far in good order. -/
theorem locates_step {st : State} (h : Describes st cs) (hstep : step st a = .error f) :
    Locates cs f := by
  obtain ⟨p, o, φ⟩ := st
  obtain ⟨hp, t, w, rfl, ht, hw⟩ := h
  simp only at hp ht hw
  cases hw with
  | operand hu hs => exact locates_stepOperand hp (viable_of_before ht hu hs) hstep
  | value hu hs => exact locates_stepValue hp (viable_of_derives ht hu hs) hstep
  | @name left u s letters hu hs =>
    rw [step_name, stepName] at hstep
    split at hstep
    · cases hstep
    · cases hclose : closeName p left letters with
      | error e =>
        rw [hclose] at hstep
        cases hstep
        exact locates_closeName hp rfl ht hu hs hclose
      | ok v =>
        have hviable := viable_of_closeName rfl ht hu hs hclose
        rw [hclose] at hstep
        simp only [bind, Except.bind] at hstep
        split at hstep
        · split at hstep <;> cases hstep
          exact .here hp hviable
        · exact locates_stepValue hp hviable hstep
  | @feature left u s letters hu hs =>
    rw [step_feature, stepFeature] at hstep
    split at hstep
    · cases hstep
    · cases hclose : closeFeature p letters with
      | error e =>
        rw [hclose] at hstep
        cases hstep
        exact locates_closeFeature hp rfl ht hu hs hclose
      | ok form =>
        rw [hclose] at hstep
        simp only [bind, Except.bind] at hstep
        split at hstep <;> cases hstep
        exact .here hp (viable_of_closeFeature rfl ht hu hs hclose)
  | slash hr hs hb =>
    simp only [step] at hstep
    split at hstep
    · cases hstep
    · split at hstep
      · cases hstep
      · exact locates_stepOperand hp (viable_of_slash ht hr hs hb) hstep
  | angle hr hs hb =>
    simp only [step] at hstep
    split at hstep <;> cases hstep
    exact locates_angle hp ht hr hs hb

theorem locates_finish {st : State} (h : Describes st cs) (hfinish : finish st = .error f) :
    Locates cs f := by
  obtain ⟨p, o, φ⟩ := st
  obtain ⟨hp, t, w, rfl, ht, hw⟩ := h
  simp only at hp ht hw
  have hvalue : ∀ v, Viable (t ++ w) → finishValue ⟨p, o, φ⟩ v = .error f →
      Locates (t ++ w) f := by
    intro v hviable hvalue
    unfold finishValue at hvalue
    split at hvalue <;> cases hvalue
    exact .here hp hviable
  cases hw with
  | operand hu hs =>
    cases hfinish
    exact .here hp (viable_of_before ht hu hs)
  | value hu hs => exact hvalue _ (viable_of_derives ht hu hs) hfinish
  | @name left u s letters hu hs =>
    simp only [finish, bind, Except.bind] at hfinish
    split at hfinish
    · next e hclose =>
      cases hfinish
      exact locates_closeName hp rfl ht hu hs hclose
    · next v hclose => exact hvalue v (viable_of_closeName rfl ht hu hs hclose) hfinish
  | @feature left u s letters hu hs =>
    simp only [finish, bind, Except.bind] at hfinish
    split at hfinish
    · next e hclose =>
      cases hfinish
      exact locates_closeFeature hp rfl ht hu hs hclose
    · next form hclose =>
      cases hfinish
      exact .here hp (viable_of_closeFeature rfl ht hu hs hclose)
  | slash hr hs hb =>
    cases hfinish
    exact .here hp (viable_of_slash ht hr hs hb)
  | angle hr hs hb =>
    cases hfinish
    exact locates_angle hp ht hr hs hb

theorem locates_run {ds : List Char} {st : State} (h : Describes st cs)
    (hrun : run st ds = .error f) : Locates (cs ++ ds) f := by
  induction ds generalizing st cs with
  | nil => cases hrun
  | cons a ds ih =>
    rw [run_cons] at hrun
    cases hstep : step st a with
    | error e =>
      rw [hstep] at hrun
      cases hrun
      exact (locates_step h hstep).append (a :: ds)
    | ok st' =>
      rw [hstep] at hrun
      have hlocates := ih (describes_step h hstep) hrun
      rwa [List.append_assoc] at hlocates

theorem locates_read (h : Reading.read cs = .error f) : Locates cs f := by
  rw [Reading.read] at h
  cases hrun : run start cs with
  | error e =>
    rw [hrun] at h
    cases h
    exact locates_run describes_start hrun
  | ok st =>
    rw [hrun] at h
    exact locates_finish (describes_run describes_start hrun) h

end Notation

namespace Category

open Notation

/-- **What stands in front of a failure is well-formed so far.** The failure to read a text is
reported with this text and a place in it, and the characters in front of this place are the start
of a text that is read as a category. -/
theorem viable_of_parse_error {text : String} {e : ReadError} (h : parse text = .error e) :
    e.text = text ∧ e.position ≤ text.length ∧
      ∃ (rest : String) (c : Category),
        parse (String.ofList (text.toList.take e.position) ++ rest) = .ok c := by
  unfold parse at h
  split at h
  · cases h
  · next f hread =>
    cases h
    obtain ⟨hposition, rest, c, hdenotes⟩ := locates_read hread
    refine ⟨rfl, hposition, String.ofList rest, c, ?_⟩
    rw [parse, ← String.ofList_append, String.toList_ofList, read_of_denotes hdenotes]

/-- The name behind the blank is unknown, and the bracket in front of it is still open. -/
theorem viable_of_parse_error_openBracket :
    parse "(S[dcl]/◇ Q" = .error ⟨.unknownAtom "Q", "(S[dcl]/◇ Q", 10⟩ ∧
      ∃ (rest : String) (c : Category), parse ("(S[dcl]/◇ " ++ rest) = .ok c := by
  have h : parse "(S[dcl]/◇ Q" = .error ⟨.unknownAtom "Q", "(S[dcl]/◇ Q", 10⟩ := by rfl
  obtain ⟨-, -, rest, c, hrest⟩ := viable_of_parse_error h
  exact ⟨h, rest, c, hrest⟩

end Category

end Categorial

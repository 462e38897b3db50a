import Mathlib.Order.Basic
import Mathlib.Tactic.IntervalCases
import Mathlib.Tactic.SplitIfs
import Categorial.Json.Reader
import Categorial.Json.Writer

/-!
# JSON texts character by character

What the reader of tokens does with one more character, and from it with the pieces a written text
is made of: blanks, brackets, words and strings. A scalar ends only with the character behind it, so
between two tokens there are two kinds of states, and they differ no longer behind that character.

* `step_inString`: a string goes on, comes to its mark, or is no token.
* `Behind.step_eq`: the character behind a scalar.
* `foldl_writeString`: a string is read as it was before it was written.
-/

namespace Categorial.Json

namespace Token

variable {ts : List Token} {s : State} {c : Char}

/-! ## What one more character does -/

/-- Between the marks of a string. -/
inductive Mode.InString : Mode → Prop
  | string (us : List Nat) : (Mode.string us).InString
  | escape (us : List Nat) : (Mode.escape us).InString
  | code (us : List Nat) (missing value : Nat) : (Mode.code us missing value).InString

theorem Mode.kinds (mode : Mode) :
    mode = .gap ∨ (∃ cs, mode = .scalar cs) ∨ mode.InString ∨ mode = .stopped := by
  cases mode with
  | gap => exact .inl rfl
  | scalar cs => exact .inr (.inl ⟨cs, rfl⟩)
  | string us => exact .inr (.inr (.inl (.string us)))
  | escape us => exact .inr (.inr (.inl (.escape us)))
  | code us missing value => exact .inr (.inr (.inl (.code us missing value)))
  | stopped => exact .inr (.inr (.inr rfl))

theorem stepGap_cases (ts : List Token) (c : Char) :
    stepGap ts c = ⟨ts, .gap⟩ ∨ stepGap ts c = ⟨ts, .string []⟩ ∨
      (∃ t, punctuation? c = some t ∧ stepGap ts c = ⟨t :: ts, .gap⟩) ∨
      stepGap ts c = ⟨ts, .scalar [c]⟩ := by
  unfold stepGap
  split_ifs
  · exact .inl rfl
  · exact .inr (.inl rfl)
  · cases h : punctuation? c with
    | some t => exact .inr (.inr (.inl ⟨t, rfl, rfl⟩))
    | none => exact .inr (.inr (.inr rfl))

theorem stepGap_of_continuesScalar (h : continuesScalar c = true) (ts : List Token) :
    stepGap ts c = ⟨ts, .scalar [c]⟩ := by
  simp only [continuesScalar, Bool.and_eq_true, Bool.not_eq_true', bne_iff_ne, ne_eq,
    Option.isNone_iff_eq_none] at h
  obtain ⟨⟨hgap, hmark⟩, hnone⟩ := h
  simp only [stepGap, hgap, hmark, hnone, Bool.false_eq_true, if_false]

/-- Inside a string no token comes up but the string itself at its mark, or what is none. -/
theorem step_inString {mode : Mode} (h : mode.InString) (ts : List Token) (c : Char) :
    (∃ mode', mode'.InString ∧ step ⟨ts, mode⟩ c = ⟨ts, mode'⟩) ∨ step ⟨ts, mode⟩ c = stop ts ∨
      c = '"' ∧ ∃ text, step ⟨ts, mode⟩ c = ⟨string text :: ts, .gap⟩ := by
  cases h with
  | string us =>
    simp only [step]
    split_ifs with hmark
    · exact .inr (.inr ⟨hmark, _, rfl⟩)
    · exact .inl ⟨_, .escape us, rfl⟩
    · exact .inr (.inl rfl)
    · exact .inl ⟨_, .string _, rfl⟩
  | escape us =>
    simp only [step]
    split_ifs
    · exact .inl ⟨_, .code us 4 0, rfl⟩
    · cases escaped? c with
      | some n => exact .inl ⟨_, .string _, rfl⟩
      | none => exact .inr (.inl rfl)
  | code us missing value =>
    simp only [step]
    cases Text.hexValue? c with
    | none => exact .inr (.inl rfl)
    | some d =>
      refine .inl ?_
      dsimp only
      split_ifs
      · exact ⟨_, .string _, rfl⟩
      · exact ⟨_, .code us _ _, rfl⟩

theorem step_feed_of_inString {mode : Mode} (h : mode.InString) (ts : List Token) :
    step ⟨ts, mode⟩ '\n' = stop ts := by
  cases h <;> rfl

/-! ## Starts of numbers -/

theorem unsigned_cons (h : c ≠ '-') (cs : List Char) : unsigned (c :: cs) = c :: cs := by
  unfold unsigned
  split
  · next heq => exact absurd (List.cons.inj heq).1 h
  · rfl

theorem afterWhole?_cons (h : c ≠ '0') (cs : List Char) :
    afterWhole? (c :: cs) = afterDigits? (c :: cs) := by
  unfold afterWhole?
  split
  · next heq => exact absurd (List.cons.inj heq).1 h
  · rfl

/-! ## Between two tokens -/

/-- The reader has met the given tokens, the last of them perhaps a scalar that may go on. -/
inductive Behind (ts : List Token) : State → Prop
  | gap : Behind ts ⟨ts, .gap⟩
  | scalar {cs : List Char} {front : List Token} (h : ts = Token.scalar cs.reverse :: front) :
      Behind ts ⟨front, .scalar cs⟩

theorem Behind.step_eq (h : Behind ts s) (hc : continuesScalar c = false) :
    step s c = stepGap ts c := by
  cases h with
  | gap => rfl
  | scalar h => simp only [step, hc, Bool.false_eq_true, if_false, ← h]

theorem Behind.finish_eq (h : Behind ts s) : finish s = ts.reverse := by
  cases h with
  | gap => rfl
  | scalar h => rw [h, finish]

theorem continuesScalar_of_isGap (h : isGap c = true) : continuesScalar c = false := by
  simp only [continuesScalar, h, Bool.not_true, Bool.false_and]

theorem stepGap_of_isGap (h : isGap c = true) (ts : List Token) : stepGap ts c = ⟨ts, .gap⟩ := by
  simp only [stepGap, h, if_true]

theorem Behind.foldl_gaps (h : Behind ts s) {cs : List Char} (hcs : ∀ c ∈ cs, isGap c = true) :
    Behind ts (cs.foldl step s) := by
  induction cs generalizing s with
  | nil => exact h
  | cons c cs ih =>
    rw [List.forall_mem_cons] at hcs
    have hstep : step s c = ⟨ts, .gap⟩ := by
      rw [h.step_eq (continuesScalar_of_isGap hcs.1), stepGap_of_isGap hcs.1]
    exact ih (hstep ▸ .gap) hcs.2

theorem Behind.foldl_newLine (h : Behind ts s) (depth : Nat) :
    (newLine depth).toList.foldl step s = ⟨ts, .gap⟩ := by
  have hfeed : step s '\n' = ⟨ts, .gap⟩ := h.step_eq rfl
  have hspaces : ∀ n, (Text.spaces n).foldl step ⟨ts, .gap⟩ = ⟨ts, .gap⟩ := by
    intro n
    induction n with
    | zero => rfl
    | succ n ih => exact ih
  simp only [newLine, String.toList_append, String.toList_ofList]
  show List.foldl step (step s '\n') (Text.spaces (4 * depth)) = _
  rw [hfeed, hspaces]

theorem foldl_continues {w : List Char} (hw : ∀ c ∈ w, continuesScalar c = true)
    (cs : List Char) : w.foldl step ⟨ts, .scalar cs⟩ = ⟨ts, .scalar (w.reverse ++ cs)⟩ := by
  induction w generalizing cs with
  | nil => rfl
  | cons c w ih =>
    rw [List.forall_mem_cons] at hw
    rw [List.foldl_cons, List.reverse_cons, List.append_assoc, List.singleton_append, ← ih hw.2]
    simp only [step, hw.1, if_true]

theorem behind_scalar {w : List Char} (hw : ∀ c ∈ w, continuesScalar c = true) (hne : w ≠ [])
    (ts : List Token) : Behind (scalar w :: ts) (w.foldl step ⟨ts, .gap⟩) := by
  obtain ⟨c, w, rfl⟩ := List.exists_cons_of_ne_nil hne
  rw [List.forall_mem_cons] at hw
  have hstart : step ⟨ts, .gap⟩ c = ⟨ts, .scalar [c]⟩ := stepGap_of_continuesScalar hw.1 ts
  rw [List.foldl_cons, hstart, foldl_continues hw.2]
  refine .scalar ?_
  rw [List.reverse_append, List.reverse_reverse, List.reverse_singleton, List.singleton_append]

/-! ## Strings -/

/-- The code units of a character. -/
def unitsOf (c : Char) : List Nat :=
  if c.toNat < 0x10000 then [c.toNat]
  else [0xD800 + (c.toNat - 0x10000) / 0x400, 0xDC00 + (c.toNat - 0x10000) % 0x400]

theorem toNat_bounds (c : Char) :
    c.toNat < 0xD800 ∨ 0xDFFF < c.toNat ∧ c.toNat < 0x110000 :=
  c.valid

theorem joinUnits_unitsOf (c : Char) (us : List Nat) :
    joinUnits (unitsOf c ++ us) = c :: joinUnits us := by
  have hbounds := toNat_bounds c
  unfold unitsOf
  split_ifs with hsmall
  · have hhigh : isHighUnit c.toNat = false := by
      simp only [isHighUnit, Bool.and_eq_false_iff, decide_eq_false_iff_not]
      omega
    have hlow : isLowUnit c.toNat = false := by
      simp only [isLowUnit, Bool.and_eq_false_iff, decide_eq_false_iff_not]
      omega
    have hchar : unitChar c.toNat = c := by
      simp only [unitChar, hhigh, hlow, Bool.or_self, Bool.false_eq_true, if_false,
        Char.ofNat_toNat]
    cases us with
    | nil => exact congrArg (· :: []) hchar
    | cons u us =>
      simp only [List.singleton_append, joinUnits, hhigh, Bool.false_and, Bool.false_eq_true,
        if_false, hchar]
  -- the two units of a character beyond the first plane
  · generalize hm : c.toNat - 0x10000 = m
    have hhigh : isHighUnit (0xD800 + m / 0x400) = true := by
      simp only [isHighUnit, Bool.and_eq_true, decide_eq_true_eq]
      omega
    have hlow : isLowUnit (0xDC00 + m % 0x400) = true := by
      simp only [isLowUnit, Bool.and_eq_true, decide_eq_true_eq]
      omega
    have hpoint : pairPoint (0xD800 + m / 0x400) (0xDC00 + m % 0x400) = c.toNat := by
      unfold pairPoint
      omega
    simp only [List.cons_append, List.nil_append, joinUnits, hhigh, hlow, Bool.and_self, if_true,
      hpoint, Char.ofNat_toNat]

theorem joinUnits_flatMap (cs : List Char) : joinUnits (cs.flatMap unitsOf) = cs := by
  induction cs with
  | nil => rfl
  | cons c cs ih => rw [List.flatMap_cons, joinUnits_unitsOf, ih]

theorem hexValue?_hexDigit {n : Nat} (h : n < 16) : Text.hexValue? (Text.hexDigit n) = some n := by
  interval_cases n <;> rfl

theorem foldl_escapeUnit {n : Nat} (h : n < 0x10000) (ts : List Token) (us : List Nat) :
    (escapeUnit n).foldl step ⟨ts, .string us⟩ = ⟨ts, .string (n :: us)⟩ := by
  have hdigit : ∀ m, Text.hexValue? (Text.hexDigit (m % 16)) = some (m % 16) := fun m =>
    hexValue?_hexDigit (Nat.mod_lt m (by decide))
  have hstart : ∀ cs : List Char, ('\\' :: 'u' :: cs).foldl step ⟨ts, .string us⟩ =
      cs.foldl step ⟨ts, .code us 4 0⟩ := fun _ => rfl
  have hvalue : 16 * (16 * (16 * (16 * 0 + n / 16 / 16 / 16 % 16) + n / 16 / 16 % 16) +
      n / 16 % 16) + n % 16 = n := by omega
  rw [escapeUnit, hstart]
  simp only [Text.hexDigits, List.nil_append, List.cons_append, List.foldl_cons, List.foldl_nil,
    step, hdigit, Nat.reduceLeDiff, Nat.reduceSub, if_false, if_true, le_refl]
  rw [hvalue]

theorem foldl_writeChar (c : Char) (ts : List Token) (us : List Nat) :
    (writeChar c).foldl step ⟨ts, .string us⟩ = ⟨ts, .string ((unitsOf c).reverse ++ us)⟩ := by
  have hsmall : c.toNat < 0x10000 → (unitsOf c).reverse ++ us = c.toNat :: us := fun h => by
    rw [unitsOf, if_pos h]
    rfl
  simp only [writeChar, Bool.or_eq_true, decide_eq_true_eq]
  split_ifs with hmark hfeed hreturn htab hform hback hplain hshort
  · obtain rfl | rfl := hmark <;> rfl
  · subst hfeed
    rfl
  · subst hreturn
    rfl
  · subst htab
    rfl
  · rw [hsmall (by omega), hform]
    rfl
  · rw [hsmall (by omega), hback]
    rfl
  · rw [not_or] at hmark
    simp only [Bool.and_eq_true, decide_eq_true_eq] at hplain
    rw [hsmall (by omega), List.foldl_cons, List.foldl_nil]
    simp only [step]
    rw [if_neg hmark.1, if_neg hmark.2, if_neg (by omega)]
  · rw [hsmall hshort, foldl_escapeUnit hshort]
  · have hbounds := toNat_bounds c
    rw [unitsOf, if_neg hshort, List.foldl_append, foldl_escapeUnit (by omega),
      foldl_escapeUnit (by omega)]
    rfl

theorem foldl_writeChars (cs : List Char) (ts : List Token) (us : List Nat) :
    (cs.flatMap writeChar).foldl step ⟨ts, .string us⟩ =
      ⟨ts, .string ((cs.flatMap unitsOf).reverse ++ us)⟩ := by
  induction cs generalizing us with
  | nil => rfl
  | cons c cs ih =>
    rw [List.flatMap_cons, List.foldl_append, foldl_writeChar, ih, List.flatMap_cons,
      List.reverse_append, List.append_assoc]

theorem Behind.foldl_writeString (h : Behind ts s) (text : String) :
    (writeString text).toList.foldl step s = ⟨.string text :: ts, .gap⟩ := by
  have hopen : step s '"' = ⟨ts, .string []⟩ := h.step_eq rfl
  have hclose : ∀ us, step ⟨ts, .string us⟩ '"' =
      ⟨.string (String.ofList (joinUnits us.reverse)) :: ts, .gap⟩ := fun _ => rfl
  have hchars : (writeString text).toList =
      '"' :: (text.toList.flatMap writeChar ++ ['"']) := by
    simp [writeString]
  rw [hchars, List.foldl_cons, hopen, List.foldl_append, foldl_writeChars, List.foldl_cons, hclose,
    List.foldl_nil, List.append_nil, List.reverse_reverse, joinUnits_flatMap, String.ofList_toList]

end Token

end Categorial.Json

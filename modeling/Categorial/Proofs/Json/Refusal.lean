import Mathlib.Data.List.TakeWhile
import Categorial.Proofs.Json.Characters

/-!
# Texts that are no JSON

What is no token spoils a text, whatever follows it. Only a whole number of too many digits can be
reported in its place, and that number then stands in front of it.

A text is *foreign* if it neither starts with a token nor closes a string. On a line it cannot be
rescued by anything in front of it: it is either no token itself, or the rest of a string that the
line leaves open.

* `ofTokens_unreadable`: a sequence of tokens with one that is none.
* `Token.bounded_foldl`: the numbers that are reported have their digits in the text read so far.
* `parse_foreign`: a text with a foreign end of a line.
-/

namespace Categorial.Json

/-! ## Tokens -/

variable {s : State} {t : Token} {f : Fault}

theorem stepValue_error {opened : List Frame} (h : stepValue opened t = .error f) :
    f = .malformed ∨ ∃ n, t = .tooManyDigits n ∧ f = .tooManyDigits n := by
  unfold stepValue at h
  split at h <;> cases h
  · exact .inr ⟨_, rfl, rfl⟩
  · exact .inl rfl

theorem stepSeparator_error {opened : List Frame} (h : stepSeparator opened t = .error f) :
    f = .malformed := by
  unfold stepSeparator at h
  split at h <;> cases h
  rfl

theorem step_error (h : step s t = .error f) :
    f = .malformed ∨ ∃ n, t = .tooManyDigits n ∧ f = .tooManyDigits n := by
  unfold step at h
  split at h
  · exact stepValue_error h
  · split at h
    · cases h
    · exact stepValue_error h
  · split at h <;> cases h
    exact .inl rfl
  · split at h <;> cases h
    exact .inl rfl
  · split at h <;> cases h
    exact .inl rfl
  · exact .inl (stepSeparator_error h)
  · cases h
    exact .inl rfl

theorem step_unreadable (s : State) : step s .unreadable = .error .malformed := by
  obtain ⟨opened, phase⟩ := s
  cases phase with
  | firstItem =>
    cases opened with
    | nil => rfl
    | cons frame => rcases frame with ⟨_ | _⟩ | _ <;> rfl
  | separator =>
    cases opened with
    | nil => rfl
    | cons frame => rcases frame with _ | _ <;> rfl
  | _ => rfl

theorem foldlM_unreadable (front rest : List Token) (s : State) :
    (front ++ .unreadable :: rest).foldlM step s = .error .malformed ∨
      ∃ n, .tooManyDigits n ∈ front ∧
        (front ++ .unreadable :: rest).foldlM step s = .error (.tooManyDigits n) := by
  induction front generalizing s with
  | nil =>
    left
    rw [List.nil_append, List.foldlM_cons, step_unreadable]
    rfl
  | cons t front ih =>
    rw [List.cons_append, List.foldlM_cons]
    cases hstep : step s t with
    | ok s' =>
      obtain h | ⟨n, hn, h⟩ := ih s'
      · exact .inl h
      · exact .inr ⟨n, List.mem_cons_of_mem t hn, h⟩
    | error f =>
      obtain rfl | ⟨n, rfl, rfl⟩ := step_error hstep
      · exact .inl rfl
      · exact .inr ⟨n, List.mem_cons_self, rfl⟩

theorem ofTokens_unreadable (front rest : List Token) :
    ofTokens (front ++ .unreadable :: rest) = .error .malformed ∨
      ∃ n, .tooManyDigits n ∈ front ∧
        ofTokens (front ++ .unreadable :: rest) = .error (.tooManyDigits n) := by
  obtain h | ⟨n, hn, h⟩ := foldlM_unreadable front rest ⟨[], .value⟩
  · left
    rw [ofTokens, h]
    rfl
  · refine .inr ⟨n, hn, ?_⟩
    rw [ofTokens, h]
    rfl

namespace Token

variable {k l : Nat} {ts : List Token} {s : State} {c : Char}

/-! ## Tokens are never taken back -/

theorem exists_tokens_stepGap (ts : List Token) (c : Char) :
    ∃ more, (stepGap ts c).tokens = more ++ ts := by
  obtain h | h | ⟨t, -, h⟩ | h := stepGap_cases ts c
  · exact ⟨[], by rw [h, List.nil_append]⟩
  · exact ⟨[], by rw [h, List.nil_append]⟩
  · exact ⟨[t], by rw [h, List.singleton_append]⟩
  · exact ⟨[], by rw [h, List.nil_append]⟩

theorem exists_tokens_step (s : State) (c : Char) :
    ∃ more, (step s c).tokens = more ++ s.tokens := by
  obtain ⟨ts, mode⟩ := s
  obtain rfl | ⟨cs, rfl⟩ | hmode | rfl := mode.kinds
  · exact exists_tokens_stepGap ts c
  · simp only [step]
    split_ifs
    · exact ⟨[], rfl⟩
    · obtain ⟨more, h⟩ := exists_tokens_stepGap (scalar cs.reverse :: ts) c
      exact ⟨more ++ [scalar cs.reverse], by rw [h, ← List.append_cons]⟩
  · obtain ⟨mode', -, h⟩ | h | ⟨-, text, h⟩ := step_inString hmode ts c
    · exact ⟨[], by rw [h, List.nil_append]⟩
    · exact ⟨[unreadable], by rw [h]; rfl⟩
    · exact ⟨[string text], by rw [h, List.singleton_append]⟩
  · exact ⟨[], rfl⟩

theorem exists_tokens_foldl (s : State) (cs : List Char) :
    ∃ more, (cs.foldl step s).tokens = more ++ s.tokens := by
  induction cs generalizing s with
  | nil => exact ⟨[], rfl⟩
  | cons c cs ih =>
    obtain ⟨first, hfirst⟩ := exists_tokens_step s c
    obtain ⟨more, hmore⟩ := ih (step s c)
    exact ⟨more ++ first, by rw [List.foldl_cons, hmore, hfirst, List.append_assoc]⟩

theorem exists_finish (s : State) : ∃ more, finish s = s.tokens.reverse ++ more := by
  obtain ⟨ts, mode⟩ := s
  cases mode with
  | gap | stopped => exact ⟨[], (List.append_nil _).symm⟩
  | scalar | string | escape | code => exact ⟨[_], List.reverse_cons⟩

/-! ## Whole numbers of too many digits -/

theorem length_le_countP_of_afterDigits? {cs rest : List Char} (h : afterDigits? cs = some rest) :
    cs.length - rest.length ≤ cs.countP Text.isAsciiDigit := by
  cases cs with
  | nil => cases h
  | cons c cs =>
    simp only [afterDigits?] at h
    split_ifs at h with hc
    cases h
    have hcut := List.takeWhile_append_dropWhile (p := Text.isAsciiDigit) (l := cs)
    have hlength := congrArg List.length hcut
    have hcount := congrArg (List.countP Text.isAsciiDigit) hcut
    have hall : (cs.takeWhile Text.isAsciiDigit).countP Text.isAsciiDigit =
        (cs.takeWhile Text.isAsciiDigit).length :=
      List.countP_eq_length.mpr fun _ => List.mem_takeWhile_imp
    rw [List.length_append] at hlength
    rw [List.countP_append] at hcount
    rw [List.length_cons, List.countP_cons_of_pos hc]
    omega

theorem wholeDigits_le (cs : List Char) : wholeDigits cs ≤ cs.countP Text.isAsciiDigit := by
  have hunsigned : (unsigned cs).countP Text.isAsciiDigit ≤ cs.countP Text.isAsciiDigit := by
    unfold unsigned
    split
    · exact (List.sublist_cons_self _ _).countP_le
    · exact le_rfl
  unfold wholeDigits
  split
  · next rest h =>
    split_ifs
    · exact Nat.zero_le _
    · refine le_trans ?_ hunsigned
      unfold afterWhole? at h
      split at h
      · next cs hcs =>
        cases h
        rw [hcs, List.length_cons, List.countP_cons_of_pos (by decide)]
        omega
      · exact length_le_countP_of_afterDigits? h
  · exact Nat.zero_le _

theorem scalar_eq_tooManyDigits {cs : List Char} {n : Nat} (h : scalar cs = .tooManyDigits n) :
    Decimal.digitLimit < n ∧ n ≤ cs.countP Text.isAsciiDigit := by
  simp only [scalar] at h
  split_ifs at h with _ _ _ hlimit
  cases h
  exact ⟨hlimit, wholeDigits_le cs⟩

/-- The reported numbers have more digits than are read, and at most `k`. -/
def Reported (k : Nat) (ts : List Token) : Prop :=
  ∀ n, .tooManyDigits n ∈ ts → Decimal.digitLimit < n ∧ n ≤ k

theorem Reported.mono (h : Reported k ts) (hl : k ≤ l) : Reported l ts :=
  fun n hn => ⟨(h n hn).1, (h n hn).2.trans hl⟩

theorem Reported.cons {t : Token} (h : Reported k ts)
    (ht : ∀ n, t = .tooManyDigits n → Decimal.digitLimit < n ∧ n ≤ k) : Reported k (t :: ts) := by
  intro n hn
  obtain hn | hn := List.mem_cons.mp hn
  · exact ht n hn.symm
  · exact h n hn

theorem Reported.scalar (h : Reported k ts) {cs : List Char}
    (hcs : cs.countP Text.isAsciiDigit ≤ k) : Reported k (scalar cs.reverse :: ts) := by
  refine h.cons fun n hn => ?_
  obtain ⟨hlimit, hle⟩ := scalar_eq_tooManyDigits hn
  rw [List.countP_reverse] at hle
  exact ⟨hlimit, hle.trans hcs⟩

/-- What holds behind a text with `k` digits. -/
structure Bounded (k : Nat) (s : State) : Prop where
  tokens : Reported k s.tokens
  scalar : ∀ cs, s.mode = .scalar cs → cs.countP Text.isAsciiDigit ≤ k
  stopped : s.mode = .stopped → ∃ front, s.tokens = .unreadable :: front

theorem bounded_gap (h : Reported k ts) : Bounded k ⟨ts, .gap⟩ :=
  ⟨h, nofun, nofun⟩

theorem bounded_scalar (h : Reported k ts) {cs : List Char}
    (hcs : cs.countP Text.isAsciiDigit ≤ k) : Bounded k ⟨ts, .scalar cs⟩ := by
  refine ⟨h, fun cs' hcs' => ?_, nofun⟩
  cases hcs'
  exact hcs

theorem bounded_inString (h : Reported k ts) {mode : Mode} (hmode : mode.InString) :
    Bounded k ⟨ts, mode⟩ := by
  refine ⟨h, ?_, ?_⟩
  · rintro cs rfl
    cases hmode
  · rintro rfl
    cases hmode

theorem bounded_stopped (h : Reported k ts) (hfront : ∃ front, ts = .unreadable :: front) :
    Bounded k ⟨ts, .stopped⟩ :=
  ⟨h, nofun, fun _ => hfront⟩

theorem bounded_stop (h : Reported k ts) : Bounded k (stop ts) :=
  bounded_stopped (h.cons nofun) ⟨ts, rfl⟩

theorem bounded_string (h : Reported k ts) (text : String) : Bounded k ⟨.string text :: ts, .gap⟩ :=
  bounded_gap (h.cons nofun)

theorem bounded_stepGap (h : Reported k ts) (c : Char) :
    Bounded (k + [c].countP Text.isAsciiDigit) (stepGap ts c) := by
  have hmono := h.mono (Nat.le_add_right k ([c].countP Text.isAsciiDigit))
  obtain heq | heq | ⟨t, ht, heq⟩ | heq := stepGap_cases ts c
  · exact heq ▸ bounded_gap hmono
  · exact heq ▸ bounded_inString hmono (.string [])
  · refine heq ▸ bounded_gap (hmono.cons fun n hn => ?_)
    rw [hn] at ht
    unfold punctuation? at ht
    split at ht <;> cases ht
  · exact heq ▸ bounded_scalar hmono (Nat.le_add_left _ k)

theorem bounded_step (h : Bounded k s) (c : Char) :
    Bounded (k + [c].countP Text.isAsciiDigit) (step s c) := by
  have hmono := h.tokens.mono (Nat.le_add_right k ([c].countP Text.isAsciiDigit))
  obtain ⟨ts, mode⟩ := s
  obtain rfl | ⟨cs, rfl⟩ | hmode | rfl := mode.kinds
  · exact bounded_stepGap h.tokens c
  · have hcs := h.scalar cs rfl
    simp only [step]
    split_ifs
    · apply bounded_scalar hmono
      rw [← List.singleton_append, List.countP_append]
      omega
    · exact bounded_stepGap (h.tokens.scalar hcs) c
  · obtain ⟨mode', hmode', heq⟩ | heq | ⟨-, text, heq⟩ := step_inString hmode ts c
    · exact heq ▸ bounded_inString hmono hmode'
    · exact heq ▸ bounded_stop hmono
    · exact heq ▸ bounded_string hmono text
  · exact bounded_stopped hmono (h.stopped rfl)

theorem bounded_foldl (h : Bounded k s) (cs : List Char) :
    Bounded (k + cs.countP Text.isAsciiDigit) (cs.foldl step s) := by
  induction cs generalizing k s with
  | nil => exact h
  | cons c cs ih =>
    have hrest := ih (bounded_step h c)
    rwa [Nat.add_assoc, ← List.countP_append, List.singleton_append] at hrest

/-! ## Foreign ends of lines -/

/-- No literal and no number starts with the character, unless it is the name `NaN`. -/
theorem scalar_eq_unreadable {a : Char} {u : List Char} (hstart : a ∉ "-ntfI".toList)
    (hdigit : Text.isAsciiDigit a = false) (hname : 'a' ∉ u) : scalar (a :: u) = .unreadable := by
  have hne : ∀ b, b ∈ "-ntfI".toList ∨ Text.isAsciiDigit b = true → a ≠ b := by
    rintro b (hb | hb) rfl
    · exact hstart hb
    · rw [hdigit] at hb
      cases hb
  have hnone : afterWhole? (unsigned (a :: u)) = none := by
    rw [unsigned_cons (hne '-' (by decide)), afterWhole?_cons (hne '0' (by decide)), afterDigits?,
      if_neg (by simp [hdigit])]
  have hwhole : wholeDigits (a :: u) = 0 := by rw [wholeDigits, hnone]
  have hnumber : isNumber (a :: u) = false := by
    rw [isNumber, hnone]
    rfl
  have htext : ∀ (b : Char) (v : List Char), b ∈ "-ntfI".toList ∨ 'a' ∈ v →
      String.ofList (a :: u) ≠ String.ofList (b :: v) := by
    intro b v hbv heq
    obtain ⟨rfl, rfl⟩ := List.cons.inj (String.ofList_injective heq)
    exact hbv.elim hstart hname
  have hnull : String.ofList (a :: u) ≠ "null" := htext 'n' "ull".toList (by decide)
  have htrue : String.ofList (a :: u) ≠ "true" := htext 't' "rue".toList (by decide)
  have hfalse : String.ofList (a :: u) ≠ "false" := htext 'f' "alse".toList (by decide)
  have hnan : String.ofList (a :: u) ≠ "NaN" := htext 'N' "aN".toList (by decide)
  have hinfinity : String.ofList (a :: u) ≠ "Infinity" := htext 'I' "nfinity".toList (by decide)
  have hnegative : String.ofList (a :: u) ≠ "-Infinity" := htext '-' "Infinity".toList (by decide)
  simp only [scalar, hnull, htrue, hfalse, hwhole, hnan, hinfinity, hnegative, hnumber, if_false,
    Nat.not_lt_zero, decide_false, Bool.or_false, Bool.false_eq_true]

/-- A text that starts with what is no token and closes no string. -/
structure Foreign (v : List Char) : Prop where
  mark_notMem : '"' ∉ v
  takeWhile_ne_nil : v.takeWhile continuesScalar ≠ []
  scalar_eq : scalar (v.takeWhile continuesScalar) = .unreadable

/-- What is no token has been met, and the tokens in front of it are the given ones. -/
def Spoiled (front : List Token) (s : State) : Prop :=
  ∃ behind, s.tokens = behind ++ .unreadable :: front

theorem Spoiled.foldl {front : List Token} (h : Spoiled front s) (cs : List Char) :
    Spoiled front (cs.foldl step s) := by
  obtain ⟨behind, h⟩ := h
  obtain ⟨more, hmore⟩ := exists_tokens_foldl s cs
  exact ⟨more ++ behind, by rw [hmore, h, List.append_assoc]⟩

theorem foldl_scalar (ts : List Token) (cs v : List Char) :
    ∃ more, ((v ++ ['\n']).foldl step ⟨ts, .scalar cs⟩).tokens =
      more ++ scalar (cs.reverse ++ v.takeWhile continuesScalar) :: ts := by
  induction v generalizing cs with
  | nil => exact ⟨[], by rw [List.takeWhile_nil, List.append_nil]; rfl⟩
  | cons c v ih =>
    rw [List.cons_append, List.foldl_cons, List.takeWhile_cons]
    simp only [step]
    split_ifs
    · obtain ⟨more, h⟩ := ih (c :: cs)
      exact ⟨more, by rw [h, List.reverse_cons, List.append_assoc, List.singleton_append]⟩
    · obtain ⟨first, hfirst⟩ := exists_tokens_stepGap (scalar cs.reverse :: ts) c
      obtain ⟨more, hmore⟩ :=
        exists_tokens_foldl (stepGap (scalar cs.reverse :: ts) c) (v ++ ['\n'])
      exact ⟨more ++ first, by rw [hmore, hfirst, List.append_nil, List.append_assoc]⟩

theorem foldl_stop (ts : List Token) (cs : List Char) : cs.foldl step (stop ts) = stop ts := by
  induction cs with
  | nil => rfl
  | cons c cs ih => exact ih

theorem foldl_inString {v : List Char} (hv : '"' ∉ v) {mode : Mode} (h : mode.InString)
    (ts : List Token) : (v ++ ['\n']).foldl step ⟨ts, mode⟩ = stop ts := by
  induction v generalizing mode with
  | nil => exact step_feed_of_inString h ts
  | cons c v ih =>
    rw [List.mem_cons, not_or] at hv
    rw [List.cons_append, List.foldl_cons]
    obtain ⟨mode', hmode', heq⟩ | heq | ⟨hc, -⟩ := step_inString h ts c
    · rw [heq, ih hv.2 hmode']
    · rw [heq, foldl_stop]
    · exact absurd hc.symm hv.1

theorem foldl_gap {v : List Char} (hv : Foreign v) (ts : List Token) :
    Spoiled ts ((v ++ ['\n']).foldl step ⟨ts, .gap⟩) := by
  cases v with
  | nil => exact absurd rfl hv.takeWhile_ne_nil
  | cons c v =>
    have hc : continuesScalar c = true := by
      by_contra hc
      exact hv.takeWhile_ne_nil (List.takeWhile_cons_of_neg hc)
    obtain ⟨more, h⟩ := foldl_scalar ts [c] v
    refine ⟨more, ?_⟩
    rw [← hv.scalar_eq, List.takeWhile_cons_of_pos hc, List.cons_append, List.foldl_cons]
    simp only [step]
    rw [stepGap_of_continuesScalar hc, h]
    rfl

/-- Behind the space the reader is between two tokens, inside a string or behind what is no
token. -/
theorem spoiled_of_foreign (hs : Bounded k s) {v : List Char} (hv : Foreign v) :
    ∃ front, Spoiled front ((v ++ ['\n']).foldl step (step s ' ')) ∧ Reported k front := by
  obtain ⟨ts, mode⟩ := s
  obtain rfl | ⟨cs, rfl⟩ | hmode | rfl := mode.kinds
  -- between two tokens, or behind a scalar that the space ends, the foreign text is no token
  · exact ⟨ts, foldl_gap hv ts, hs.tokens⟩
  · exact ⟨_, foldl_gap hv _, hs.tokens.scalar (hs.scalar cs rfl)⟩
  -- inside a string it comes to the end of the line without a mark
  · refine ⟨ts, ?_, hs.tokens⟩
    obtain ⟨mode', hmode', heq⟩ | heq | ⟨hmark, -⟩ := step_inString hmode ts ' '
    · rw [heq, foldl_inString hv.mark_notMem hmode']
      exact ⟨[], rfl⟩
    · rw [heq, foldl_stop]
      exact ⟨[], rfl⟩
    · cases hmark
  · obtain ⟨front, hfront⟩ := hs.stopped rfl
    have hspoiled : Spoiled front ⟨ts, .stopped⟩ := ⟨[], hfront⟩
    refine ⟨front, (hspoiled.foldl [' ']).foldl _, fun n hn => hs.tokens n ?_⟩
    exact hfront ▸ List.mem_cons_of_mem _ hn

end Token

/-- **A line with a foreign end.** Whatever stands in front of it on the line and whatever follows
the line, the text is refused, and as no JSON unless a whole number in front has more digits than
are read. -/
theorem parse_foreign {v : List Char} (hv : Token.Foreign v) (u rest : List Char) :
    parse (u ++ ' ' :: (v ++ '\n' :: rest)) = .error .malformed ∨
      ∃ n, Decimal.digitLimit < n ∧ n ≤ u.countP Text.isAsciiDigit ∧
        parse (u ++ ' ' :: (v ++ '\n' :: rest)) = .error (.tooManyDigits n) := by
  have hstart : Token.Bounded 0 ⟨[], .gap⟩ := Token.bounded_gap nofun
  have hu := Token.bounded_foldl hstart u
  rw [Nat.zero_add] at hu
  obtain ⟨front, hspoiled, hreported⟩ := Token.spoiled_of_foreign hu hv
  obtain ⟨behind, hbehind⟩ := hspoiled.foldl rest
  obtain ⟨more, hmore⟩ := Token.exists_finish
    (rest.foldl Token.step ((v ++ ['\n']).foldl Token.step
      (Token.step (u.foldl Token.step ⟨[], .gap⟩) ' ')))
  have htext : Token.ofText (u ++ ' ' :: (v ++ '\n' :: rest)) =
      front.reverse ++ .unreadable :: (behind.reverse ++ more) := by
    rw [Token.ofText, List.foldl_append, List.foldl_cons, List.append_cons, List.foldl_append,
      hmore, hbehind]
    simp
  rw [parse, htext]
  obtain h | ⟨n, hn, h⟩ := ofTokens_unreadable front.reverse (behind.reverse ++ more)
  · exact .inl h
  · obtain ⟨hlimit, hle⟩ := hreported n (List.mem_reverse.mp hn)
    exact .inr ⟨n, hlimit, hle, h⟩

end Categorial.Json

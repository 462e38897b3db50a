import Categorial.Proofs.Decimal.Spelling
import Categorial.Proofs.Json.RoundTrip

/-!
# Decimals as JSON numbers

A spelled decimal, with a sign in front or not, is the text of a JSON number. It is not taken for a
whole number, so the number of its digits is not limited.

* `Token.scalar_append`: the token of a spelled decimal, with a sign or without.
* `isNumeral_of_spelled`: the text of a spelled decimal.
-/

namespace Categorial.Json

open Decimal (Digits Whole Spelled)
open Text (isAsciiDigit)

namespace Token

variable {ds cs : List Char}

theorem afterDigits?_append (hds : Digits ds) (hcs : ∀ a ∈ cs.head?, isAsciiDigit a = false) :
    afterDigits? (ds ++ cs) = some cs := by
  obtain ⟨d, ds, rfl⟩ := List.exists_cons_of_ne_nil hds.ne_nil
  obtain ⟨hd, hrest⟩ := List.forall_mem_cons.mp hds.all_digits
  have hdrop : (ds ++ cs).dropWhile isAsciiDigit = cs := by
    rw [List.dropWhile_append_of_pos hrest]
    cases cs with
    | nil => rfl
    | cons c cs => rw [List.dropWhile_cons_of_neg (by simp [hcs c rfl])]
  rw [List.cons_append, afterDigits?, if_pos hd, hdrop]

theorem afterDigits?_self (hds : Digits ds) : afterDigits? ds = some [] := by
  have h := @afterDigits?_append ds [] hds nofun
  rwa [List.append_nil] at h

theorem afterWhole?_append (hds : Whole ds) (hcs : ∀ a ∈ cs.head?, isAsciiDigit a = false) :
    afterWhole? (ds ++ cs) = some cs := by
  by_cases hzero : ds.head? = some '0'
  · rw [hds.eq_of_head hzero]
    rfl
  · obtain ⟨d, ds, rfl⟩ := List.exists_cons_of_ne_nil hds.ne_nil
    rw [← afterDigits?_append hds.toDigits hcs]
    apply afterWhole?_cons
    rintro rfl
    exact hzero rfl

theorem whole_singleton {d : Char} (hd : isAsciiDigit d = true) : Whole [d] :=
  ⟨.cons hd nofun, fun h => by rw [Option.some.inj h]⟩

theorem afterExponent?_eq {sign : Char} {es : List Char} (hsign : sign = '+' ∨ sign = '-')
    (hes : Digits es) : afterExponent? ('e' :: sign :: es) = some [] := by
  rw [← afterDigits?_self hes]
  obtain rfl | rfl := hsign <;> rfl

/-- Behind the digits in front a spelled decimal has a fraction or an exponent. -/
theorem exists_afterWhole? (h : Spelled cs) :
    ∃ rest, afterWhole? cs = some rest ∧ startsPart rest = true ∧
      (afterFraction? rest).bind afterExponent? = some [] := by
  cases h with
  | @fixed ds fs hds hfs =>
    have hfraction : afterFraction? ('.' :: fs) = some [] := afterDigits?_self hfs
    refine ⟨'.' :: fs, afterWhole?_append hds (by simp; rfl), ?_, ?_⟩
    · rw [startsPart, hfraction]
      rfl
    · rw [hfraction]
      rfl
  | @exponent d sign es hd hsign hes =>
    have hexponent := afterExponent?_eq hsign hes
    refine ⟨'e' :: sign :: es, afterWhole?_append (whole_singleton hd) (by simp; rfl), ?_, ?_⟩
    · rw [startsPart, hexponent]
      rfl
    · exact hexponent
  | @scientific d sign fs es hd hfs hsign hes =>
    have hfraction : afterFraction? ('.' :: (fs ++ 'e' :: sign :: es)) =
        some ('e' :: sign :: es) := afterDigits?_append hfs (by simp; rfl)
    refine ⟨_, afterWhole?_append (whole_singleton hd) (by simp; rfl), ?_, ?_⟩
    · rw [startsPart, hfraction]
      rfl
    · rw [hfraction]
      exact afterExponent?_eq hsign hes

theorem exists_cons_of_spelled (h : Spelled cs) :
    ∃ d rest, cs = d :: rest ∧ isAsciiDigit d = true := by
  cases h with
  | fixed hds =>
    obtain ⟨d, ds, rfl⟩ := List.exists_cons_of_ne_nil hds.ne_nil
    exact ⟨d, _, rfl, hds.all_digits d List.mem_cons_self⟩
  | exponent hd | scientific hd => exact ⟨_, _, rfl, hd⟩

theorem continuesScalar_of_isAsciiDigit {c : Char} (h : isAsciiDigit c = true) :
    continuesScalar c = true := by
  have hne : ∀ d, isAsciiDigit d = false → c ≠ d := by
    rintro d hd rfl
    rw [h] at hd
    cases hd
  have hgap : isGap c = false := by
    simp [isGap, hne ' ' rfl, hne '\t' rfl, hne '\n' rfl, hne '\r' rfl]
  have hnone : punctuation? c = none := by
    unfold punctuation?
    split
    all_goals first | rfl | exact absurd h (by decide)
  simp [continuesScalar, hgap, hnone, hne '"' rfl]

theorem continuesScalar_of_spelled (h : Spelled cs) : ∀ c ∈ cs, continuesScalar c = true := by
  have hdigits : ∀ {ds}, Digits ds → ∀ c ∈ ds, continuesScalar c = true := fun hds c hc =>
    continuesScalar_of_isAsciiDigit (hds.all_digits c hc)
  have hsigns : ∀ {sign : Char}, sign = '+' ∨ sign = '-' → continuesScalar sign = true := by
    rintro sign (rfl | rfl) <;> rfl
  cases h with
  | fixed hds hfs =>
    rw [List.forall_mem_append, List.forall_mem_cons]
    exact ⟨hdigits hds.toDigits, rfl, hdigits hfs⟩
  | exponent hd hsign hes =>
    simp only [List.forall_mem_cons]
    exact ⟨continuesScalar_of_isAsciiDigit hd, rfl, hsigns hsign, hdigits hes⟩
  | scientific hd hfs hsign hes =>
    simp only [List.forall_mem_cons, List.forall_mem_append]
    exact ⟨continuesScalar_of_isAsciiDigit hd, rfl, hdigits hfs, rfl, hsigns hsign, hdigits hes⟩

/-! ## Signs -/

variable {minus : List Char}

theorem unsigned_append (hminus : minus = [] ∨ minus = ['-']) (h : Spelled cs) :
    unsigned (minus ++ cs) = cs := by
  obtain rfl | rfl := hminus
  · obtain ⟨d, rest, rfl, hd⟩ := exists_cons_of_spelled h
    apply unsigned_cons
    rintro rfl
    cases hd
  · rfl

theorem head?_append_spelled (hminus : minus = [] ∨ minus = ['-']) (h : Spelled cs) :
    ∃ a, (minus ++ cs).head? = some a ∧ (a = '-' ∨ isAsciiDigit a = true) := by
  obtain rfl | rfl := hminus
  · obtain ⟨d, rest, rfl, hd⟩ := exists_cons_of_spelled h
    exact ⟨d, rfl, .inr hd⟩
  · exact ⟨'-', rfl, .inl rfl⟩

/-- A number with a fraction or an exponent is none of the literals and no whole number. -/
theorem scalar_append (hminus : minus = [] ∨ minus = ['-']) (h : Spelled cs) :
    scalar (minus ++ cs) = .number (String.ofList (minus ++ cs)) := by
  obtain ⟨rest, hwhole, hstarts, hparts⟩ := exists_afterWhole? h
  obtain ⟨a, hhead, ha⟩ := head?_append_spelled hminus h
  rw [← unsigned_append hminus h] at hwhole
  have hzero : wholeDigits (minus ++ cs) = 0 := by
    rw [wholeDigits, hwhole]
    simp only [hstarts, if_true]
  have hnumber : isNumber (minus ++ cs) = true := by
    simp only [isNumber, hwhole, Option.bind_eq_bind, Option.bind_some, hparts, decide_true]
  have hne : ∀ (b : Char) (name : List Char), b ≠ '-' → isAsciiDigit b = false →
      String.ofList (minus ++ cs) ≠ String.ofList (b :: name) := by
    intro b name hsign hdigit heq
    rw [String.ofList_injective heq, List.head?_cons] at hhead
    cases hhead
    rw [hdigit] at ha
    simp [hsign] at ha
  have hnull : String.ofList (minus ++ cs) ≠ "null" := hne 'n' "ull".toList (by decide) rfl
  have htrue : String.ofList (minus ++ cs) ≠ "true" := hne 't' "rue".toList (by decide) rfl
  have hfalse : String.ofList (minus ++ cs) ≠ "false" := hne 'f' "alse".toList (by decide) rfl
  simp only [scalar, hnull, htrue, hfalse, hzero, hnumber, Nat.not_lt_zero, Bool.or_true, if_false,
    if_true]

end Token

theorem toList_sign (negative : Bool) :
    (Decimal.sign negative).toList = [] ∨ (Decimal.sign negative).toList = ['-'] := by
  cases negative
  · exact .inl rfl
  · exact .inr rfl

theorem isNumeral_of_spelled {cs : List Char} (h : Spelled cs) (negative : Bool) :
    IsNumeral (Decimal.sign negative ++ String.ofList cs) := by
  have hsign := toList_sign negative
  have htext : (Decimal.sign negative ++ String.ofList cs).toList =
      (Decimal.sign negative).toList ++ cs := by
    rw [String.toList_append, String.toList_ofList]
  refine ⟨List.all_eq_true.mpr ?_, ?_⟩
  · rw [htext, List.forall_mem_append]
    refine ⟨fun c hc => ?_, Token.continuesScalar_of_spelled h⟩
    obtain hnil | hminus := hsign
    · rw [hnil] at hc
      cases hc
    · rw [hminus] at hc
      rw [List.mem_singleton.mp hc]
      rfl
  · rw [htext, Token.scalar_append hsign h, ← htext, String.ofList_toList]

end Categorial.Json

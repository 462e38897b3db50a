import Mathlib.Data.List.DropRight
import Mathlib.Tactic.FieldSimp
import Categorial.Decimal.Reading
import Categorial.Proofs.Decimal.Rounding

/-!
# The number that a text stands for

The text of a finite number is a decimal that rounds to the number. It is the shortest decimal in
some layout: the zeros that are written in front of its digits or behind them, or left out at their
end, are made up for by the power of ten that is read.

* `HasValue`: the value of a decimal without sign.
* `hasValue_layout`: the value of digits in any layout.
* `roundsTo_render`: the value of the text of a number rounds to the number.
-/

namespace Categorial.Decimal

open Text (isAsciiDigit)

/-! ## The number of digits -/

theorem ofDigits_append (ds es : List Char) :
    ofDigits (ds ++ es) = ofDigits ds * 10 ^ es.length + ofDigits es := by
  have h := @Nat.ofDigitChars_eq_ofDigitChars_zero es (ofDigits ds)
  rw [ofDigits, List.foldl_append, ← ofDigits, Nat.mul_comm (ofDigits ds)]
  exact h

theorem ofDigits_replicate_append (n : Nat) (ds : List Char) :
    ofDigits (List.replicate n '0' ++ ds) = ofDigits ds := by
  have hzeros : ofDigits (List.replicate n '0') = 0 :=
    (@Nat.ofDigitChars_replicate_zero 10 0 n).trans (Nat.mul_zero _)
  rw [ofDigits_append, hzeros, Nat.zero_mul, Nat.zero_add]

theorem ofDigits_append_replicate (ds : List Char) (n : Nat) :
    ofDigits (ds ++ List.replicate n '0') = ofDigits ds * 10 ^ n := by
  have hzeros := ofDigits_replicate_append n []
  rw [List.append_nil] at hzeros
  rw [ofDigits_append, hzeros, List.length_replicate]
  rfl

theorem ofDigits_toDigits (n : Nat) : ofDigits (Nat.toDigits 10 n) = n :=
  Nat.ofDigitChars_ten_toDigits

/-- The digits of a number are its significant ones and zeros. -/
theorem exists_toDigits_eq {n : Nat} (hn : n ≠ 0) :
    ∃ k, Nat.toDigits 10 n = significantDigits n ++ List.replicate k '0' := by
  have hsplit := @List.rdropWhile_append_rtakeWhile _ (· == '0') (Nat.toDigits 10 n)
  have hzeros : (Nat.toDigits 10 n).rtakeWhile (· == '0') =
      List.replicate ((Nat.toDigits 10 n).rtakeWhile (· == '0')).length '0' :=
    List.eq_replicate_iff.mpr ⟨rfl, fun c hc => by simpa using List.mem_rtakeWhile_imp hc⟩
  have hhead := (digits_significantDigits hn).2
  refine ⟨_, Eq.trans ?_ (congrArg (significantDigits n ++ ·) hzeros)⟩
  simp only [significantDigits] at hhead ⊢
  split_ifs at hhead ⊢
  · exact absurd rfl hhead
  · exact hsplit.symm

/-! ## Reading a decimal -/

variable {ds fs rest : List Char} {k : Int}

theorem span_digits (hds : ∀ c ∈ ds, isAsciiDigit c = true)
    (hrest : ∀ c ∈ rest.head?, isAsciiDigit c = false) :
    (ds ++ rest).takeWhile isAsciiDigit = ds ∧ (ds ++ rest).dropWhile isAsciiDigit = rest := by
  rw [List.takeWhile_append_of_pos hds, List.dropWhile_append_of_pos hds]
  cases rest with
  | nil => simp
  | cons c rest =>
    have hc : isAsciiDigit c = false := hrest c rfl
    simp [hc]

theorem readDecimal?_point (hds : Digits ds) (hfs : ∀ c ∈ fs, isAsciiDigit c = true)
    (hrest : ∀ c ∈ rest.head?, isAsciiDigit c = false) (hk : readExponent? rest = some k) :
    readDecimal? (ds ++ '.' :: (fs ++ rest)) = some (ofDigits (ds ++ fs), k - fs.length) := by
  have hpoint : ∀ c ∈ ('.' :: (fs ++ rest)).head?, isAsciiDigit c = false := by
    rintro c ⟨⟩
    rfl
  obtain ⟨hwhole, hafter⟩ := span_digits hds.all_digits hpoint
  obtain ⟨hfraction, hbehind⟩ := span_digits hfs hrest
  have hne : ds.isEmpty = false := by simpa using hds.ne_nil
  simp only [readDecimal?, hwhole, hafter, hfraction, hbehind, hne, hk]
  rfl

theorem readDecimal?_fixed (hds : Digits ds) (hfs : ∀ c ∈ fs, isAsciiDigit c = true) :
    readDecimal? (ds ++ '.' :: fs) = some (ofDigits (ds ++ fs), -(fs.length : Int)) := by
  have hread := @readDecimal?_point ds fs [] 0 hds hfs (by simp) rfl
  rwa [List.append_nil, Int.zero_sub] at hread

theorem readDecimal?_whole (hds : Digits ds)
    (hrest : ∀ c ∈ rest.head?, isAsciiDigit c = false ∧ c ≠ '.')
    (hk : readExponent? rest = some k) : readDecimal? (ds ++ rest) = some (ofDigits ds, k) := by
  obtain ⟨hwhole, hafter⟩ := span_digits hds.all_digits fun c hc => (hrest c hc).1
  have hne : ds.isEmpty = false := by simpa using hds.ne_nil
  have hnopoint : ∀ r, rest ≠ '.' :: r := by
    rintro r rfl
    exact (hrest '.' rfl).2 rfl
  unfold readDecimal?
  simp only [hwhole]
  split
  · next r hpoint => exact absurd (hafter.symm.trans hpoint) (hnopoint r)
  · simp only [hafter, hne, hk, List.append_nil]
    simp

/-- The digits of an exponent may have a zero in front. -/
theorem readExponent?_renderExponent (e : Int) : readExponent? (renderExponent e) = some e := by
  obtain ⟨es, hes, hdigits, hvalue⟩ : ∃ es, renderExponent e =
      'e' :: (if e < 0 then '-' else '+') :: es ∧ Digits es ∧ ofDigits es = e.natAbs := by
    refine ⟨_, rfl, ?_, ?_⟩
    · split_ifs
      · exact .cons rfl (digits_toDigits _).all_digits
      · exact digits_toDigits _
    · split_ifs <;> exact ofDigits_toDigits _
  have hsign : readSign ((if e < 0 then '-' else '+') :: es) = (decide (e < 0), es) := by
    by_cases he : e < 0
    · simp [he, readSign]
    · simp [he, readSign]
  have hform : ((decide ('e' = 'e') || decide ('e' = 'E')) && !es.isEmpty && es.all isAsciiDigit) =
      true := by
    have hne : es.isEmpty = false := by simpa using hdigits.ne_nil
    rw [hne, List.all_eq_true.mpr hdigits.all_digits]
    rfl
  rw [hes, readExponent?, hsign]
  refine (if_pos hform).trans (congrArg some ?_)
  rw [hvalue]
  by_cases he : e < 0
  · rw [if_pos (decide_eq_true he)]
    omega
  · rw [if_neg (by simpa using he)]
    omega

theorem head?_renderExponent (e : Int) :
    ∀ c ∈ (renderExponent e).head?, isAsciiDigit c = false ∧ c ≠ '.' := by
  rintro c ⟨⟩
  decide

/-! ## The decimal of a layout -/

/-- The text is a decimal without sign of the given value. -/
def HasValue (cs : List Char) (v : ℚ) : Prop :=
  ∃ digits place, readDecimal? cs = some (digits, place) ∧ (digits * 10 ^ place : ℚ) = v

theorem HasValue.unique {cs : List Char} {v w : ℚ} (hv : HasValue cs v) (hw : HasValue cs w) :
    v = w := by
  obtain ⟨digits, place, hread, rfl⟩ := hv
  obtain ⟨digits', place', hread', rfl⟩ := hw
  rw [hread] at hread'
  cases hread'
  rfl

/-- A decimal starts with a digit or a point. -/
theorem HasValue.head?_ne {cs : List Char} {v : ℚ} (h : HasValue cs v) {c : Char}
    (hdigit : isAsciiDigit c = false) (hpoint : c ≠ '.') : cs.head? ≠ some c := by
  obtain ⟨digits, place, hread, -⟩ := h
  intro hhead
  obtain ⟨rest, rfl⟩ := List.head?_eq_some_iff.mp hhead
  have hwhole : (c :: rest).takeWhile isAsciiDigit = [] :=
    List.takeWhile_cons_of_neg (Bool.not_eq_true _ ▸ hdigit)
  have hafter : (c :: rest).dropWhile isAsciiDigit = c :: rest :=
    List.dropWhile_cons_of_neg (Bool.not_eq_true _ ▸ hdigit)
  simp only [readDecimal?, hwhole, hafter] at hread
  split at hread
  · next hpointed => exact hpoint (List.cons.inj hpointed).1
  · cases hread

theorem hasValue_behind_zeros (hds : Digits ds) (n : Nat) :
    HasValue (['0'] ++ '.' :: (List.replicate n '0' ++ ds))
      (ofDigits ds * 10 ^ (-(n : Int) - ds.length)) := by
  have hfs : ∀ c ∈ List.replicate n '0' ++ ds, isAsciiDigit c = true :=
    List.forall_mem_append.mpr ⟨fun _ => isAsciiDigit_of_mem_replicate, hds.all_digits⟩
  refine ⟨_, _, readDecimal?_fixed digits_zero hfs, ?_⟩
  have hexponent : -((List.replicate n '0' ++ ds).length : Int) = -n - ds.length := by
    rw [List.length_append, List.length_replicate]
    omega
  rw [← List.append_assoc, List.singleton_append, ← List.replicate_succ,
    ofDigits_replicate_append, hexponent]

/-- In full, with at least one digit on both sides of the point. -/
theorem hasValue_in_full (hds : Digits ds) {k : Nat} (hk : k ≠ 0) :
    HasValue (ds.take k ++ List.replicate (k - ds.length) '0' ++
        '.' :: (if ds.length ≤ k then ['0'] else ds.drop k))
      (ofDigits ds * 10 ^ ((k : Int) - ds.length)) := by
  have hfront : Digits (ds.take k ++ List.replicate (k - ds.length) '0') := by
    refine .append ⟨?_, fun c hc => hds.all_digits c (List.mem_of_mem_take hc)⟩
      fun _ => isAsciiDigit_of_mem_replicate
    rw [ne_eq, List.take_eq_nil_iff, not_or]
    exact ⟨hk, hds.ne_nil⟩
  split_ifs with hlong
  · refine ⟨_, _, readDecimal?_fixed hfront digits_zero.all_digits, ?_⟩
    have hexponent : (k : Int) - ds.length = (k - ds.length : Nat) := by omega
    rw [List.take_of_length_le hlong, List.append_assoc, ← List.replicate_succ',
      ofDigits_append_replicate, hexponent, zpow_natCast, Nat.cast_mul, Nat.cast_pow, pow_succ,
      List.length_singleton, Nat.cast_one, zpow_neg_one]
    field_simp
    push_cast
    ring
  · have hback : ∀ c ∈ ds.drop k, isAsciiDigit c = true :=
      fun c hc => hds.all_digits c (List.mem_of_mem_drop hc)
    refine ⟨_, _, readDecimal?_fixed hfront hback, ?_⟩
    have hexponent : -((ds.drop k).length : Int) = k - ds.length := by
      rw [List.length_drop]
      omega
    rw [Nat.sub_eq_zero_of_le (by omega : k ≤ ds.length), List.replicate_zero, List.append_nil,
      List.take_append_drop, hexponent]

theorem hasValue_scientific {d : Char} (hds : Digits (d :: ds)) (e : Int) :
    HasValue (d :: '.' :: ds ++ renderExponent e) (ofDigits (d :: ds) * 10 ^ (e - ds.length)) := by
  obtain ⟨hd, hall⟩ := List.forall_mem_cons.mp hds.all_digits
  have hfirst : Digits [d] := .cons hd nofun
  have hrest := fun c hc => (head?_renderExponent e c hc).1
  exact ⟨_, _, readDecimal?_point hfirst hall hrest (readExponent?_renderExponent e), rfl⟩

/-- The value of digits with their point behind the digit number `point`. -/
theorem hasValue_layout (hds : Digits ds) (point : Int) :
    HasValue (layout ds point) (ofDigits ds * 10 ^ (point - ds.length)) := by
  unfold layout
  split_ifs with hplain hsmall
  · have hpoint : point - ds.length = -((-point).toNat : Int) - ds.length := by omega
    rw [hpoint]
    exact hasValue_behind_zeros hds _
  · generalize hk : point.toNat = k
    obtain rfl : (k : Int) = point := by omega
    exact hasValue_in_full hds (by omega)
  · split
    · exact absurd rfl hds.ne_nil
    · have hexponent := readExponent?_renderExponent (point - 1)
      have hrest := head?_renderExponent (point - 1)
      exact ⟨_, _, readDecimal?_whole hds hrest hexponent, rfl⟩
    · next d more _ =>
      have hpoint : point - ((d :: more).length : Int) = point - 1 - more.length := by
        rw [List.length_cons]
        omega
      rw [hpoint]
      exact hasValue_scientific hds _

/-! ## The text of a number -/

theorem hasValue_renderMagnitude {m : Nat} {e : Int} (hm : m ≠ 0) (he : minExponent ≤ e) :
    HasValue (renderMagnitude m e).toList
      ((shortest m e).digits * 10 ^ (shortest m e).place) := by
  rw [renderMagnitude, if_neg hm, String.toList_ofList]
  have hne := shortest_digits_ne_zero hm he
  generalize shortest m e = d at hne ⊢
  obtain ⟨zeros, hzeros⟩ := exists_toDigits_eq hne
  have hdigits : d.digits = ofDigits (significantDigits d.digits) * 10 ^ zeros := by
    rw [← ofDigits_append_replicate, ← hzeros, ofDigits_toDigits]
  have hpoint : ((Nat.toDigits 10 d.digits).length + d.place -
      (significantDigits d.digits).length : Int) = zeros + d.place := by
    rw [hzeros, List.length_append, List.length_replicate]
    omega
  have hvalue : (d.digits * 10 ^ d.place : ℚ) =
      ofDigits (significantDigits d.digits) * 10 ^ ((zeros : Int) + d.place) := by
    rw [zpow_add₀ (by norm_num), zpow_natCast, ← mul_assoc]
    exact_mod_cast congrArg (fun n : Nat => (n * 10 ^ d.place : ℚ)) hdigits
  rw [hvalue, ← hpoint]
  exact hasValue_layout (digits_significantDigits hne).1 _

theorem sign_append_inj {negative negative' : Bool} {cs cs' : List Char}
    (hcs : cs.head? ≠ some '-') (hcs' : cs'.head? ≠ some '-')
    (h : sign negative ++ String.ofList cs = sign negative' ++ String.ofList cs') :
    negative = negative' ∧ cs = cs' := by
  have hlist := congrArg String.toList h
  rw [String.toList_append, String.toList_append, String.toList_ofList,
    String.toList_ofList] at hlist
  cases negative <;> cases negative'
  · exact ⟨rfl, hlist⟩
  · exact absurd (congrArg List.head? hlist) hcs
  · exact absurd (congrArg List.head? hlist).symm hcs'
  · exact ⟨rfl, (List.cons.inj hlist).2⟩

/-- **The text of a finite number stands for it.** -/
theorem roundsTo_render {x : Float} {negative : Bool} {m : Nat} {e : Int}
    (h : decode x = .finite negative m e) :
    ∃ cs v, render x = sign negative ++ String.ofList cs ∧ HasValue cs v ∧ RoundsTo m e v := by
  have htext : render x = sign negative ++ String.ofList (renderMagnitude m e).toList := by
    rw [render, h, String.ofList_toList]
  by_cases hm : m = 0
  · subst hm
    have hread : readDecimal? (renderMagnitude 0 e).toList = some (0, -1) := by
      rw [renderMagnitude, if_pos rfl]
      exact readDecimal?_fixed digits_zero digits_zero.all_digits
    exact ⟨_, 0, htext, ⟨0, -1, hread, by simp⟩, roundsTo_zero e⟩
  · have hregular := regular_of_decode h
    exact ⟨_, _, htext, hasValue_renderMagnitude hm hregular.minExponent_le,
      roundsTo_shortest hm hregular⟩

end Categorial.Decimal

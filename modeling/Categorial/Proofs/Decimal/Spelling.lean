import Mathlib.Algebra.Order.Ring.Nat
import Mathlib.Data.Nat.Digits.Defs
import Mathlib.Tactic.IntervalCases
import Mathlib.Tactic.Ring
import Categorial.Decimal.Shortest
import Categorial.Text.Digit

/-!
# How numbers are spelled

Every finite number is written with digits on both sides of a point, or with an exponent behind one
digit in front of the point. No zero stands in front of other digits. This is the case because the
decimal that is found for a number other than zero is not zero: a grid is entered at the magnitude
of the number, where even the last point below the number is no more zero.

* `Interval.below_ne_zero_iff`: the grids with a point between zero and the number.
* `shortest_digits_ne_zero`: the decimal of a number that is not zero.
* `spelled_render`: the text of a finite number.
-/

namespace Categorial.Decimal

open Text (isAsciiDigit)

/-! ## The spelling -/

/-- One or more digits. -/
structure Digits (ds : List Char) : Prop where
  ne_nil : ds ≠ []
  all_digits : ∀ c ∈ ds, isAsciiDigit c = true

/-- Digits with a zero in front only if it stands alone. -/
structure Whole (ds : List Char) : Prop extends Digits ds where
  eq_of_head : ds.head? = some '0' → ds = ['0']

/-- The spellings of a number without sign. -/
inductive Spelled : List Char → Prop
  | fixed {ds fs : List Char} (hds : Whole ds) (hfs : Digits fs) : Spelled (ds ++ '.' :: fs)
  | exponent {d sign : Char} {es : List Char} (hd : isAsciiDigit d = true)
      (hsign : sign = '+' ∨ sign = '-') (hes : Digits es) : Spelled (d :: 'e' :: sign :: es)
  | scientific {d sign : Char} {fs es : List Char} (hd : isAsciiDigit d = true) (hfs : Digits fs)
      (hsign : sign = '+' ∨ sign = '-') (hes : Digits es) :
      Spelled (d :: '.' :: (fs ++ 'e' :: sign :: es))

theorem Digits.cons {d : Char} {ds : List Char} (hd : isAsciiDigit d = true)
    (hds : ∀ c ∈ ds, isAsciiDigit c = true) : Digits (d :: ds) :=
  ⟨List.cons_ne_nil d ds, List.forall_mem_cons.mpr ⟨hd, hds⟩⟩

theorem digits_zero : Digits ['0'] :=
  .cons rfl nofun

theorem Digits.append {ds es : List Char} (hds : Digits ds)
    (hes : ∀ c ∈ es, isAsciiDigit c = true) : Digits (ds ++ es) :=
  ⟨List.append_ne_nil_of_left_ne_nil hds.ne_nil es,
    List.forall_mem_append.mpr ⟨hds.all_digits, hes⟩⟩

theorem isAsciiDigit_of_mem_replicate {n : Nat} {c : Char} (h : c ∈ List.replicate n '0') :
    isAsciiDigit c = true := by
  rw [List.eq_of_mem_replicate h]
  rfl

/-! ## The digits of a whole number -/

theorem digits_toDigits (n : Nat) : Digits (Nat.toDigits 10 n) := by
  refine ⟨List.ne_nil_of_length_pos Nat.length_toDigits_pos, fun c hc => ?_⟩
  have hdigit : c.isDigit = true := Nat.isDigit_of_mem_toDigits (by decide) (by decide) hc
  simp only [Char.isDigit, Bool.and_eq_true, decide_eq_true_eq] at hdigit
  simp only [isAsciiDigit, Bool.and_eq_true, decide_eq_true_eq]
  exact hdigit

theorem head?_toDigits_ne_zero {n : Nat} (hn : n ≠ 0) : (Nat.toDigits 10 n).head? ≠ some '0' := by
  induction n using Nat.strongRecOn with
  | ind n ih =>
    by_cases hlt : n < 10
    · rw [Nat.toDigits_of_lt_base hlt]
      interval_cases n
      · exact absurd rfl hn
      all_goals decide
    · obtain ⟨d, ds, hds⟩ := List.exists_cons_of_ne_nil (digits_toDigits (n / 10)).ne_nil
      have hrest := ih (n / 10) (by omega) (by omega)
      rw [Nat.toDigits_of_base_le (by decide) (by omega), hds]
      rwa [hds] at hrest

theorem pow_length_toDigits_le {n : Nat} (hn : n ≠ 0) :
    10 ^ ((Nat.toDigits 10 n).length - 1) ≤ n := by
  by_cases hone : (Nat.toDigits 10 n).length ≤ 1
  · rw [Nat.sub_eq_zero_of_le hone, pow_zero]
    omega
  · have hlength := Nat.length_toDigits_le_iff (b := 10) (n := n)
      (k := (Nat.toDigits 10 n).length - 1) (by decide) (by omega)
    have hlt : ¬ n < 10 ^ ((Nat.toDigits 10 n).length - 1) := fun h => by
      have := hlength.mpr h
      omega
    omega

/-- Without the zeros at the end a number starts with the same digit. -/
theorem digits_significantDigits {n : Nat} (hn : n ≠ 0) :
    Digits (significantDigits n) ∧ (significantDigits n).head? ≠ some '0' := by
  obtain ⟨d, ds, hds⟩ := List.exists_cons_of_ne_nil (digits_toDigits n).ne_nil
  have hhead : d ≠ '0' := by
    have := head?_toDigits_ne_zero hn
    rw [hds, List.head?_cons] at this
    exact fun h => this (congrArg some h)
  have hall := (digits_toDigits n).all_digits
  rw [hds, List.forall_mem_cons] at hall
  have hsuffix : ∃ es, ((d :: ds).reverse.dropWhile (· == '0')).reverse = d :: es ∧
      ∀ c ∈ es, c ∈ ds := by
    refine ⟨(ds.reverse.dropWhile (· == '0')).reverse, ?_, fun c hc => ?_⟩
    · rw [List.reverse_cons, List.dropWhile_append]
      have hlast : [d].dropWhile (· == '0') = [d] :=
        List.dropWhile_cons_of_neg (by simpa using hhead)
      split_ifs with hempty
      · rw [hlast, List.isEmpty_iff.mp hempty]
        rfl
      · rw [List.reverse_append, List.reverse_singleton, List.singleton_append]
    · exact List.mem_reverse.mp ((List.dropWhile_sublist _).subset (List.mem_reverse.mp hc))
  obtain ⟨es, hes, hsub⟩ := hsuffix
  have heq : significantDigits n = d :: es := by
    simp only [significantDigits, hds, hes, List.isEmpty_cons, Bool.false_eq_true, if_false]
  rw [heq]
  exact ⟨.cons hall.1 fun c hc => hall.2 c (hsub c hc), by simpa using hhead⟩

/-! ## The layout of digits -/

theorem renderExponent_eq (e : Int) :
    ∃ sign es, renderExponent e = 'e' :: sign :: es ∧ (sign = '+' ∨ sign = '-') ∧ Digits es := by
  have hdigits := digits_toDigits e.natAbs
  refine ⟨_, _, rfl, ?_, ?_⟩
  · split_ifs
    · exact .inr rfl
    · exact .inl rfl
  · split_ifs
    · exact .cons rfl hdigits.all_digits
    · exact hdigits

theorem spelled_layout {ds : List Char} (hds : Digits ds) (hhead : ds.head? ≠ some '0')
    (point : Int) : Spelled (layout ds point) := by
  unfold layout
  split_ifs with hplain hsmall
  · refine @Spelled.fixed ['0'] _ ⟨digits_zero, fun _ => rfl⟩ ?_
    refine ⟨List.append_ne_nil_of_right_ne_nil _ hds.ne_nil, List.forall_mem_append.mpr ?_⟩
    exact ⟨fun _ => isAsciiDigit_of_mem_replicate, hds.all_digits⟩
  · generalize hk : point.toNat = k
    have hpos : k ≠ 0 := by omega
    have hfront : Digits (ds.take k) :=
      ⟨by simpa [hpos] using hds.ne_nil, fun c hc => hds.all_digits c (List.mem_of_mem_take hc)⟩
    refine .fixed ⟨hfront.append fun _ => isAsciiDigit_of_mem_replicate, fun hzero => ?_⟩ ?_
    · obtain ⟨d, more, hmore⟩ := List.exists_cons_of_ne_nil hds.ne_nil
      obtain ⟨k, rfl⟩ := Nat.exists_eq_succ_of_ne_zero hpos
      rw [hmore] at hzero hhead
      exact absurd hzero hhead
    · split_ifs with hlong
      · exact digits_zero
      · refine ⟨fun h => ?_, fun c hc => hds.all_digits c (List.mem_of_mem_drop hc)⟩
        rw [List.drop_eq_nil_iff] at h
        exact hlong h
  · obtain ⟨sign, es, hes, hsign, hdigits⟩ := renderExponent_eq (point - 1)
    have hall := hds.all_digits
    split
    · exact absurd rfl hds.ne_nil
    · rw [hes]
      exact .exponent (hall _ List.mem_cons_self) hsign hdigits
    · next d more hmore =>
      rw [hes]
      rw [List.forall_mem_cons] at hall
      refine .scientific hall.1 ⟨fun h => ?_, hall.2⟩ hsign hdigits
      exact hmore h

/-! ## The grid of a number -/

namespace Interval

theorem below_ne_zero_iff {i : Interval} (hdivisor : 0 < i.divisor) (place : Int) :
    i.below place ≠ 0 ↔
      10 ^ place.toNat * i.divisor ≤ i.middle * i.scale * 10 ^ (-place).toNat := by
  have hpos : 0 < 10 ^ place.toNat * i.divisor := by positivity
  show i.middle * i.scale * 10 ^ (-place).toNat / (10 ^ place.toNat * i.divisor) ≠ 0 ↔ _
  rw [← Nat.pos_iff_ne_zero, Nat.div_pos_iff]
  exact ⟨fun h => h.2, fun h => ⟨hpos, h⟩⟩

/-- A grid is entered where its last point below the number is not zero. -/
theorem below_magnitude_sub_ne_zero {i : Interval} (hdivisor : 0 < i.divisor)
    (hdepth : i.below (-400) ≠ 0) {n : Nat} (hn : 1 ≤ n) : i.below (i.magnitude - n) ≠ 0 := by
  obtain ⟨k, hk, hbelow⟩ : ∃ k : Nat, i.magnitude = (Nat.toDigits 10 (i.below (-k))).length - k ∧
      i.below (-(k : Int)) ≠ 0 := by
    -- the depth that `magnitude` works with is found, since the last one would do
    cases hfind : depths.find? fun k => i.below (-k) ≠ 0 with
    | none =>
      have hnone := List.find?_eq_none.mp hfind 400 (by decide)
      exact absurd hdepth (by simpa using hnone)
    | some k =>
      have hmem := List.mem_of_find?_eq_some hfind
      have hk : (k.toNat : Int) = k := by
        apply Int.toNat_of_nonneg
        simp only [depths, List.mem_cons, List.not_mem_nil, or_false] at hmem
        omega
      refine ⟨k.toNat, ?_, ?_⟩
      · rw [magnitude, hfind, hk]
        rfl
      · rw [hk]
        simpa using List.find?_some hfind
  have hpow := pow_length_toDigits_le hbelow
  have hle : i.below (-k) * i.divisor ≤ i.middle * i.scale * 10 ^ k := by
    have hdiv := Nat.div_mul_le_self (i.middle * i.scale * 10 ^ k) i.divisor
    have heq : i.below (-k) = i.middle * i.scale * 10 ^ k / i.divisor := by
      show i.middle * i.scale * 10 ^ (-(-(k : Int))).toNat /
        (10 ^ (-(k : Int)).toNat * i.divisor) = _
      rw [Int.neg_neg, Int.toNat_natCast, show (-(k : Int)).toNat = 0 by omega, pow_zero, one_mul]
    rwa [heq]
  generalize hl : (Nat.toDigits 10 (i.below (-k))).length - 1 = l at hpow
  generalize ha : (i.magnitude - n).toNat = a
  generalize hb : (-(i.magnitude - n)).toNat = b
  rw [below_ne_zero_iff hdivisor, ha, hb]
  -- `10 ^ (magnitude - 1)` does not exceed the number, and no grid asked for is coarser
  have hexponents : a + k ≤ b + l := by omega
  have hpos : 0 < 10 ^ l := Nat.pow_pos (by decide)
  refine Nat.le_of_mul_le_mul_left ?_ hpos
  calc 10 ^ l * (10 ^ a * i.divisor)
      = 10 ^ a * (10 ^ l * i.divisor) := by ring
    _ ≤ 10 ^ a * (i.below (-k) * i.divisor) :=
        Nat.mul_le_mul_left _ (Nat.mul_le_mul_right _ hpow)
    _ ≤ 10 ^ a * (i.middle * i.scale * 10 ^ k) := Nat.mul_le_mul_left _ hle
    _ = i.middle * i.scale * 10 ^ (a + k) := by ring
    _ ≤ i.middle * i.scale * 10 ^ (b + l) :=
        Nat.mul_le_mul_left _ (Nat.pow_le_pow_right (by decide) hexponents)
    _ = 10 ^ l * (i.middle * i.scale * 10 ^ b) := by ring

theorem contains_zero {i : Interval} (hlow : 0 < i.low) (hscale : 0 < i.scale) (place : Int) :
    i.contains 0 place = false := by
  have hpos : 0 < i.low * i.scale * tenTo (-place).toNat := by
    have : 0 < tenTo (-place).toNat := Nat.pow_pos (by decide)
    positivity
  simp only [contains, sides, Nat.zero_mul]
  split_ifs
  · simp only [Bool.and_eq_false_iff, decide_eq_false_iff_not]
    omega
  · simp

theorem contains_of_pointOn {i : Interval} {place : Int} {d : Nat}
    (h : i.pointOn place = some d) : i.contains d place = true := by
  simp only [pointOn] at h
  split at h
  · next hboth hnext =>
    cases h
    unfold nearer
    simp only
    split_ifs
    · exact hboth
    · exact hnext
  · next hthis _ =>
    cases h
    exact hthis
  · next hnext =>
    cases h
    exact hnext
  · cases h

theorem pointOn_ne_zero {i : Interval} (hlow : 0 < i.low) (hscale : 0 < i.scale) {place : Int}
    {d : Nat} (h : i.pointOn place = some d) : d ≠ 0 := by
  have hcontains := contains_of_pointOn h
  rintro rfl
  rw [contains_zero hlow hscale] at hcontains
  cases hcontains

end Interval

theorem shortestFrom_digits_ne_zero {i : Interval} (hlow : 0 < i.low) (hscale : 0 < i.scale)
    {magnitude : Int} (hbelow : ∀ n : Nat, 1 ≤ n → i.below (magnitude - n) ≠ 0) (fuel : Nat)
    {n : Nat} (hn : 1 ≤ n) : (shortestFrom i magnitude fuel n).digits ≠ 0 := by
  induction fuel generalizing n with
  | zero => exact hbelow n hn
  | succ fuel ih =>
    unfold shortestFrom
    split
    · next h => exact Interval.pointOn_ne_zero hlow hscale h
    · exact ih (by omega)

theorem two_pow_le_ten_pow {k l : Nat} (h : k ≤ 3 * l) : 2 ^ k ≤ 10 ^ l :=
  calc 2 ^ k
      ≤ 2 ^ (3 * l) := Nat.pow_le_pow_right (by decide) h
    _ = (2 ^ 3) ^ l := pow_mul 2 3 l
    _ ≤ 10 ^ l := Nat.pow_le_pow_left (by decide) l

/-- With so many places behind the point the number leaves a trace. -/
theorem below_interval_ne_zero {m : Nat} (hm : m ≠ 0) {e : Int} {depth : Nat}
    (h : (2 - e).toNat ≤ 3 * depth) : (interval m e).below (-depth) ≠ 0 := by
  have hscale : 0 < (interval m e).scale := Nat.pow_pos (by decide)
  have hmiddle : 1 ≤ 4 * m * (interval m e).scale := Nat.mul_pos (by omega) hscale
  have hdivisor : 0 < (interval m e).divisor := Nat.pow_pos (by decide)
  rw [Interval.below_ne_zero_iff hdivisor, show (-(depth : Int)).toNat = 0 by omega, pow_zero,
    one_mul, Int.neg_neg, Int.toNat_natCast]
  calc (interval m e).divisor
      ≤ 10 ^ depth := two_pow_le_ten_pow h
    _ = 1 * 10 ^ depth := (one_mul _).symm
    _ ≤ 4 * m * (interval m e).scale * 10 ^ depth := Nat.mul_le_mul_right _ hmiddle

theorem below_magnitude_interval_ne_zero {m : Nat} {e : Int} (hm : m ≠ 0) (he : minExponent ≤ e)
    {n : Nat} (hn : 1 ≤ n) : (interval m e).below ((interval m e).magnitude - n) ≠ 0 := by
  have hdivisor : 0 < (interval m e).divisor := Nat.pow_pos (by decide)
  have hdepth : (interval m e).below (-(400 : Nat)) ≠ 0 := by
    apply below_interval_ne_zero hm
    unfold minExponent at he
    omega
  exact Interval.below_magnitude_sub_ne_zero hdivisor hdepth hn

theorem shortest_digits_ne_zero {m : Nat} {e : Int} (hm : m ≠ 0) (he : minExponent ≤ e) :
    (shortest m e).digits ≠ 0 := by
  have hscale : 0 < (interval m e).scale := Nat.pow_pos (by decide)
  have hlow : 0 < (interval m e).low := by
    show 0 < 4 * m - _
    split_ifs <;> omega
  exact shortestFrom_digits_ne_zero hlow hscale
    (fun n hn => below_magnitude_interval_ne_zero hm he hn) 17 le_rfl

theorem spelled_renderMagnitude (m : Nat) {e : Int} (he : minExponent ≤ e) :
    Spelled (renderMagnitude m e).toList := by
  unfold renderMagnitude
  split_ifs with hm
  · exact @Spelled.fixed ['0'] ['0'] ⟨digits_zero, fun _ => rfl⟩ digits_zero
  · rw [String.toList_ofList]
    obtain ⟨hdigits, hhead⟩ := digits_significantDigits (shortest_digits_ne_zero hm he)
    exact spelled_layout hdigits hhead _

theorem minExponent_le_of_decode {x : Float} {negative : Bool} {m : Nat} {e : Int}
    (h : decode x = .finite negative m e) : minExponent ≤ e := by
  simp only [decode] at h
  split_ifs at h
  · cases h
    exact le_rfl
  · cases h
    omega

/-- **The text of a finite number.** -/
theorem spelled_render {x : Float} {negative : Bool} {m : Nat} {e : Int}
    (h : decode x = .finite negative m e) :
    ∃ cs, render x = sign negative ++ String.ofList cs ∧ Spelled cs := by
  refine ⟨(renderMagnitude m e).toList, ?_, spelled_renderMagnitude m (minExponent_le_of_decode h)⟩
  rw [render, h, String.ofList_toList]

end Categorial.Decimal

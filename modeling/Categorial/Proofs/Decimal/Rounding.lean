import Mathlib.Algebra.Order.Field.Power
import Mathlib.Data.Rat.Cast.Order
import Mathlib.Tactic.FieldSimp
import Mathlib.Tactic.Linarith
import Mathlib.Tactic.Positivity
import Categorial.Proofs.Decimal.Spelling

/-!
# Rounding to a binary number

A rational number rounds to the nearest binary number, and half-way between two of them to the one
with the even mantissa. The borders that decimals are compared with are the half-way points. Since
a grid of seventeen digits is finer than the borders are apart, the shortest decimal of a number
rounds to this number, and it rounds to no other.

* `RoundsTo`: which numbers round to a binary number.
* `RoundsTo.unique`: they round to no other.
* `Interval.contains_iff`: what `Interval.contains` decides.
* `roundsTo_shortest`: the shortest decimal rounds to its number.
-/

namespace Categorial.Decimal

/-! ## Borders -/

/-- The border between a number and the one below it. Below a power of two the numbers are twice as
dense. -/
def lowerBorder (m : Nat) (e : Int) : ℚ :=
  m * 2 ^ e - if m = leadingBit ∧ e ≠ minExponent then 2 ^ (e - 2) else 2 ^ (e - 1)

/-- The border between a number and the one above it. -/
def upperBorder (m : Nat) (e : Int) : ℚ :=
  m * 2 ^ e + 2 ^ (e - 1)

/-- Whether a number is rounded to `m · 2 ^ e`. -/
def RoundsTo (m : Nat) (e : Int) (v : ℚ) : Prop :=
  if m % 2 = 0 then lowerBorder m e ≤ v ∧ v ≤ upperBorder m e
  else lowerBorder m e < v ∧ v < upperBorder m e

/-- A mantissa and an exponent as `decode` finds them. -/
structure Regular (m : Nat) (e : Int) : Prop where
  lt_of_leadingBit : m < 2 * leadingBit
  minExponent_le : minExponent ≤ e
  leadingBit_le : e ≠ minExponent → leadingBit ≤ m

theorem regular_of_decode {x : Float} {negative : Bool} {m : Nat} {e : Int}
    (h : decode x = .finite negative m e) : Regular m e := by
  refine ⟨?_, minExponent_le_of_decode h, ?_⟩
  all_goals
    have hfraction : x.toBits.toNat % twoTo 52 < leadingBit := Nat.mod_lt _ (by decide)
    simp only [decode] at h
    split_ifs at h
  · cases h
    omega
  · cases h
    omega
  · cases h
    exact fun hne => absurd rfl hne
  · cases h
    exact fun _ => Nat.le_add_right _ _

variable {m m' : Nat} {e e' : Int} {v : ℚ}

theorem zpow_quarters (e : Int) :
    (2 : ℚ) ^ e = 4 * 2 ^ (e - 2) ∧ (2 : ℚ) ^ (e - 1) = 2 * 2 ^ (e - 2) := by
  constructor
  · rw [zpow_sub₀ (by norm_num)]
    norm_num
    ring
  · rw [show e - 1 = (e - 2) + 1 by ring, zpow_add_one₀ (by norm_num)]
    ring

theorem borders_around (m : Nat) (e : Int) :
    lowerBorder m e < m * 2 ^ e ∧ (m * 2 ^ e : ℚ) < upperBorder m e := by
  have hhalf : (0 : ℚ) < 2 ^ (e - 1) := by positivity
  have hquarter : (0 : ℚ) < 2 ^ (e - 2) := by positivity
  unfold lowerBorder upperBorder
  constructor
  · split_ifs <;> linarith
  · linarith

theorem roundsTo_of_lt (hlower : lowerBorder m e < v) (hupper : v < upperBorder m e) :
    RoundsTo m e v := by
  unfold RoundsTo
  split_ifs
  · exact ⟨hlower.le, hupper.le⟩
  · exact ⟨hlower, hupper⟩

theorem RoundsTo.between (h : RoundsTo m e v) : lowerBorder m e ≤ v ∧ v ≤ upperBorder m e := by
  unfold RoundsTo at h
  split_ifs at h
  · exact h
  · exact ⟨h.1.le, h.2.le⟩

theorem RoundsTo.of_odd (h : RoundsTo m e v) (hodd : m % 2 = 1) :
    lowerBorder m e < v ∧ v < upperBorder m e := by
  rwa [RoundsTo, if_neg (by omega)] at h

theorem roundsTo_zero (e : Int) : RoundsTo 0 e 0 := by
  have hborders := borders_around 0 e
  rw [Nat.cast_zero, zero_mul] at hborders
  exact roundsTo_of_lt hborders.1 hborders.2

namespace Interval

theorem high_mul (m : Nat) (e : Int) :
    ((interval m e).high : ℚ) * 2 ^ (e - 2) = upperBorder m e := by
  obtain ⟨hwhole, hhalf⟩ := zpow_quarters e
  show ((4 * m + 2 : Nat) : ℚ) * 2 ^ (e - 2) = _
  rw [upperBorder, hwhole, hhalf]
  push_cast
  ring

theorem middle_mul (m : Nat) (e : Int) :
    ((interval m e).middle : ℚ) * 2 ^ (e - 2) = m * 2 ^ e := by
  show ((4 * m : Nat) : ℚ) * 2 ^ (e - 2) = _
  rw [(zpow_quarters e).1]
  push_cast
  ring

theorem low_mul (hm : m ≠ 0) (e : Int) :
    ((interval m e).low : ℚ) * 2 ^ (e - 2) = lowerBorder m e := by
  obtain ⟨hwhole, hhalf⟩ := zpow_quarters e
  show ((4 * m - (if m = leadingBit ∧ e ≠ minExponent then 1 else 2) : Nat) : ℚ) * 2 ^ (e - 2) = _
  rw [Nat.cast_sub (by split_ifs <;> omega), lowerBorder, hwhole, hhalf]
  split_ifs <;> (push_cast; ring)

/-- In quarters of the lesser power of two the upper border of a number does not exceed the lower
border of a greater one. -/
theorem high_le_low (h : Regular m e) (h' : Regular m' e')
    (hlt : e < e' ∨ e = e' ∧ m < m') :
    (interval m e).high ≤ (interval m' e').low * 2 ^ (e' - e).toNat ∧
      ((interval m e).high = (interval m' e').low * 2 ^ (e' - e).toNat →
        m % 2 = 1 ∨ m' % 2 = 1) := by
  have hmin := h.minExponent_le
  have hbound : m < 2 * leadingBit := h.lt_of_leadingBit
  show 4 * m + 2 ≤ (4 * m' - if m' = leadingBit ∧ e' ≠ minExponent then 1 else 2) * _ ∧
    (4 * m + 2 = (4 * m' - if m' = leadingBit ∧ e' ≠ minExponent then 1 else 2) * _ → _)
  rcases hlt with hlt | ⟨rfl, hlt⟩
  · have hleading := h'.leadingBit_le (by omega)
    have hpower : 2 ≤ 2 ^ (e' - e).toNat :=
      Nat.le_pow (show 0 < (e' - e).toNat by omega)
    generalize hlow : 4 * m' - (if m' = leadingBit ∧ e' ≠ minExponent then 1 else 2) = low
    have hle : 4 * leadingBit - 1 ≤ low := by
      rw [← hlow]
      split_ifs <;> omega
    have htwice : low * 2 ≤ low * 2 ^ (e' - e).toNat := Nat.mul_le_mul_left low hpower
    have heven : leadingBit % 2 = 0 := by decide
    constructor <;> omega
  · rw [Int.sub_self, Int.toNat_zero, pow_zero, Nat.mul_one]
    split_ifs
    · constructor <;> omega
    · constructor <;> omega

end Interval

/-- A number that rounds to one number rounds to no greater one. -/
theorem RoundsTo.not_of_lt (hround : RoundsTo m e v) (h : Regular m e) (h' : Regular m' e')
    (hlt : e < e' ∨ e = e' ∧ m < m') : ¬ RoundsTo m' e' v := by
  intro hround'
  have hm' : m' ≠ 0 := by
    have hmin := h.minExponent_le
    have hleading : 0 < leadingBit := by decide
    have hle := h'.leadingBit_le
    omega
  have hlower : ((interval m' e').low * 2 ^ (e' - e).toNat : Nat) * 2 ^ (e - 2) =
      lowerBorder m' e' := by
    rw [← Interval.low_mul hm', Nat.cast_mul, Nat.cast_pow, Nat.cast_ofNat, mul_assoc,
      ← zpow_natCast, ← zpow_add₀ (by norm_num)]
    congr 2
    omega
  obtain ⟨hle, hodd⟩ := Interval.high_le_low h h' hlt
  have hquarter : (0 : ℚ) < 2 ^ (e - 2) := by positivity
  have hmeet : (interval m e).high = (interval m' e').low * 2 ^ (e' - e).toNat := by
    refine Nat.le_antisymm hle ?_
    have hbetween : lowerBorder m' e' ≤ upperBorder m e :=
      hround'.between.1.trans hround.between.2
    rw [← hlower, ← Interval.high_mul, mul_le_mul_iff_of_pos_right hquarter] at hbetween
    exact_mod_cast hbetween
  -- the borders are one number, which rounds to the one with the even mantissa
  have hborder : upperBorder m e = lowerBorder m' e' := by
    rw [← hlower, ← Interval.high_mul, hmeet]
  rcases hodd hmeet with hodd | hodd
  · have hupper := (hround.of_odd hodd).2
    have hlower' := hround'.between.1
    linarith
  · have hlower' := (hround'.of_odd hodd).1
    have hupper := hround.between.2
    linarith

/-- **No number rounds to two binary numbers.** -/
theorem RoundsTo.unique (hround : RoundsTo m e v) (hround' : RoundsTo m' e' v) (h : Regular m e)
    (h' : Regular m' e') : m = m' ∧ e = e' := by
  have hless := hround.not_of_lt h h'
  have hgreater := hround'.not_of_lt h' h
  by_contra hne
  rcases lt_trichotomy e e' with hlt | rfl | hlt
  · exact hless (.inl hlt) hround'
  · rcases lt_trichotomy m m' with hlt | rfl | hlt
    · exact hless (.inr ⟨rfl, hlt⟩) hround'
    · exact hne ⟨rfl, rfl⟩
    · exact hgreater (.inr ⟨rfl, hlt⟩) hround
  · exact hgreater (.inl hlt) hround

/-! ## What is compared with the borders -/

namespace Interval

theorem scale_eq (m : Nat) (e : Int) :
    ((interval m e).scale : ℚ) = 2 ^ (e - 2) * (interval m e).divisor := by
  show ((2 ^ (e - 2).toNat : Nat) : ℚ) = 2 ^ (e - 2) * ((2 ^ (2 - e).toNat : Nat) : ℚ)
  rw [Nat.cast_pow, Nat.cast_pow, Nat.cast_ofNat, ← zpow_natCast, ← zpow_natCast,
    ← zpow_add₀ (by norm_num)]
  congr 1
  omega

theorem ten_zpow (place : Int) :
    (10 : ℚ) ^ place.toNat = 10 ^ place * 10 ^ (-place).toNat := by
  rw [← zpow_natCast, ← zpow_natCast, ← zpow_add₀ (by norm_num)]
  congr 1
  omega

/-- The sides of a comparison are the numbers that are compared, both times the same. -/
theorem exists_sides (m : Nat) (e place : Int) (d : Nat) : ∃ k : ℚ, 0 < k ∧ ∀ units : Nat,
    (((interval m e).sides d place units).1 : ℚ) = d * 10 ^ place * k ∧
      (((interval m e).sides d place units).2 : ℚ) = units * 2 ^ (e - 2) * k := by
  have hdivisor : 0 < (interval m e).divisor := Nat.pow_pos (by decide)
  refine ⟨10 ^ (-place).toNat * (interval m e).divisor, by positivity, fun units => ⟨?_, ?_⟩⟩
  · show ((d * 10 ^ place.toNat * (interval m e).divisor : Nat) : ℚ) = _
    push_cast
    rw [ten_zpow]
    ring
  · show ((units * (interval m e).scale * 10 ^ (-place).toNat : Nat) : ℚ) = _
    push_cast
    rw [scale_eq]
    ring

theorem sides_le_iff (m : Nat) (e place : Int) (d units units' : Nat) :
    (((interval m e).sides d place units).1 ≤ ((interval m e).sides d place units').2 ↔
        (d * 10 ^ place : ℚ) ≤ units' * 2 ^ (e - 2)) ∧
      (((interval m e).sides d place units').2 ≤ ((interval m e).sides d place units).1 ↔
        (units' * 2 ^ (e - 2) : ℚ) ≤ d * 10 ^ place) := by
  obtain ⟨k, hk, hsides⟩ := exists_sides m e place d
  constructor
  · rw [← @Nat.cast_le ℚ, (hsides units).1, (hsides units').2, mul_le_mul_iff_of_pos_right hk]
  · rw [← @Nat.cast_le ℚ, (hsides units).1, (hsides units').2, mul_le_mul_iff_of_pos_right hk]

theorem contains_iff (hm : m ≠ 0) (e : Int) (d : Nat) (place : Int) :
    (interval m e).contains d place = true ↔ RoundsTo m e (d * 10 ^ place) := by
  have hclosed : (interval m e).closed = (m % 2 == 0) := rfl
  obtain ⟨hlow, hlow'⟩ := sides_le_iff m e place d (interval m e).low (interval m e).low
  obtain ⟨hhigh, hhigh'⟩ := sides_le_iff m e place d (interval m e).low (interval m e).high
  rw [low_mul hm] at hlow hlow'
  rw [high_mul] at hhigh hhigh'
  simp only [contains, hclosed, beq_iff_eq, RoundsTo]
  split_ifs
  · rw [Bool.and_eq_true, decide_eq_true_eq, decide_eq_true_eq, hlow', hhigh]
  · rw [Bool.and_eq_true, decide_eq_true_eq, decide_eq_true_eq, ← not_le, ← not_le, ← not_le,
      ← not_le, hlow, hhigh']

/-- The points of a grid next to a number, below and above it. -/
theorem below_spec (m : Nat) (e place : Int) :
    ((interval m e).below place * 10 ^ place : ℚ) ≤ m * 2 ^ e ∧
      (m * 2 ^ e : ℚ) < ((interval m e).below place + 1 : Nat) * 10 ^ place := by
  have hspacing : 0 < tenTo place.toNat * (interval m e).divisor :=
    Nat.mul_pos (Nat.pow_pos (by decide)) (Nat.pow_pos (by decide))
  have hcompare := fun d => (sides_le_iff m e place d 0 (interval m e).middle).1
  simp only [middle_mul] at hcompare
  constructor
  · rw [← hcompare]
    show (interval m e).below place * tenTo place.toNat * (interval m e).divisor ≤ _
    rw [Nat.mul_assoc]
    exact Nat.div_mul_le_self _ _
  · rw [← not_le, ← hcompare, not_le]
    show _ < ((interval m e).below place + 1) * tenTo place.toNat * (interval m e).divisor
    rw [Nat.mul_assoc, Nat.add_one_mul]
    exact Nat.lt_div_mul_add hspacing

/-! ## Seventeen digits -/

/-- A grid that is finer than the borders are apart has a point between them, and it is one of the
two next to the number. -/
theorem isSome_pointOn (hm : m ≠ 0) {place : Int}
    (hspacing : (10 : ℚ) ^ place < upperBorder m e - lowerBorder m e) :
    ((interval m e).pointOn place).isSome := by
  obtain ⟨hbelow, habove⟩ := below_spec m e place
  obtain ⟨hlower, hupper⟩ := borders_around m e
  rw [Nat.cast_add, Nat.cast_one] at habove
  have hone : (interval m e).contains ((interval m e).below place) place = true ∨
      (interval m e).contains ((interval m e).below place + 1) place = true := by
    rw [contains_iff hm, contains_iff hm, Nat.cast_add, Nat.cast_one]
    by_cases hin : lowerBorder m e < (interval m e).below place * 10 ^ place
    · exact .inl (roundsTo_of_lt hin (hbelow.trans_lt hupper))
    · exact .inr (roundsTo_of_lt (hlower.trans habove) (by linarith))
  rw [pointOn]
  rcases hone with hone | hone
  · rw [hone]
    cases (interval m e).contains ((interval m e).below place + 1) place <;> rfl
  · rw [hone]
    cases (interval m e).contains ((interval m e).below place) place <;> rfl

/-- The first digit of a number stands in front of its magnitude. -/
theorem ten_zpow_magnitude_le (hm : m ≠ 0) (he : minExponent ≤ e) :
    (10 : ℚ) ^ ((interval m e).magnitude - 1) ≤ m * 2 ^ e := by
  have hone : (1 : ℚ) ≤ (interval m e).below ((interval m e).magnitude - 1) := by
    exact_mod_cast Nat.one_le_iff_ne_zero.mpr (below_magnitude_interval_ne_zero hm he le_rfl)
  calc (10 : ℚ) ^ ((interval m e).magnitude - 1)
      = 1 * 10 ^ ((interval m e).magnitude - 1) := (one_mul _).symm
    _ ≤ (interval m e).below ((interval m e).magnitude - 1) *
          10 ^ ((interval m e).magnitude - 1) := by gcongr
    _ ≤ m * 2 ^ e := (below_spec m e _).1

theorem ten_zpow_lt (hm : m ≠ 0) (h : Regular m e) :
    (10 : ℚ) ^ ((interval m e).magnitude - 17) < upperBorder m e - lowerBorder m e := by
  have hfirst := ten_zpow_magnitude_le hm h.minExponent_le
  obtain ⟨hwhole, hhalf⟩ := zpow_quarters e
  have hquarter : (0 : ℚ) < 2 ^ (e - 2) := by positivity
  have hspacing : (10 : ℚ) ^ ((interval m e).magnitude - 17) * 10 ^ 16 =
      10 ^ ((interval m e).magnitude - 1) := by
    rw [← zpow_natCast, ← zpow_add₀ (by norm_num)]
    congr 1
    push_cast
    ring
  rw [← hspacing, hwhole] at hfirst
  unfold upperBorder lowerBorder
  rw [hwhole, hhalf]
  split_ifs with hpower
  · -- the borders of a power of two are nearer, but its mantissa is the least
    have hpower : (m : ℚ) = 2 ^ 52 := by
      rw [hpower.1]
      norm_num [leadingBit, twoTo]
    rw [hpower] at hfirst ⊢
    norm_num at hfirst ⊢
    linarith
  · have hbound : (m : ℚ) < 2 ^ 53 := by
      have hlt : m < 2 ^ 53 := h.lt_of_leadingBit
      exact_mod_cast hlt
    have hscaled := mul_lt_mul_of_pos_right hbound hquarter
    norm_num at hfirst hscaled ⊢
    linarith

end Interval

theorem contains_shortestFrom {i : Interval} {magnitude : Int} {n last : Nat}
    (hlast : (i.pointOn (magnitude - last)).isSome) (fuel : Nat) (hle : n ≤ last)
    (hlt : last < n + fuel) :
    i.contains (shortestFrom i magnitude fuel n).digits (shortestFrom i magnitude fuel n).place =
      true := by
  induction fuel generalizing n with
  | zero => omega
  | succ fuel ih =>
    unfold shortestFrom
    split
    · next h => exact Interval.contains_of_pointOn h
    · next h =>
      have hne : n ≠ last := by
        rintro rfl
        rw [h] at hlast
        cases hlast
      exact ih (by omega) (by omega)

/-- **The shortest decimal rounds to its number.** -/
theorem roundsTo_shortest (hm : m ≠ 0) (h : Regular m e) :
    RoundsTo m e ((shortest m e).digits * 10 ^ (shortest m e).place) := by
  rw [← Interval.contains_iff hm]
  have hlast : ((interval m e).pointOn ((interval m e).magnitude - (17 : Nat))).isSome :=
    Interval.isSome_pointOn hm (Interval.ten_zpow_lt hm h)
  exact contains_shortestFrom hlast 17 (by decide) (by decide)

end Categorial.Decimal

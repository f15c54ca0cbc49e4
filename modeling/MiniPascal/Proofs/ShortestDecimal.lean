/-
`ShortestDecimal.lean` -- the decimal that is searched for.

The model compares decimals with the ends of an interval on a common scale, in naturals
(`readsBack`). On that scale one is `unit` many, so the comparison is the one of the numbers
themselves: a decimal reads back as a magnitude exactly if the magnitude covers it
(`readsBack_iff`). What is covered has no gaps, so if any point of a grid is covered, one of
the two next to the magnitude is, and these are the points that the search looks at. It
finds a decimal that reads back (`covers_shortest`), and every other that does has at least
as many decimal places (`exponent_le_shortest`).
-/
import Mathlib.Tactic.FieldSimp
import Mathlib.Tactic.NormNum
import MiniPascal.Proofs.Interval

set_option autoImplicit false

namespace MiniPascal

/-- The number that a decimal stands for. -/
def Decimal.value (d : Decimal) : ℚ := d.digits * 10 ^ d.exponent

namespace Magnitude

variable {x : Magnitude} {d : Decimal} {e : ℤ}

/-! ## Comparing on a common scale -/

theorem zpow_mul_pow_toNat_neg {b : ℚ} (hb : b ≠ 0) (z : ℤ) :
    b ^ z * b ^ (-z).toNat = b ^ z.toNat := by
  rw [← zpow_natCast, ← zpow_natCast, ← zpow_add₀ hb]
  congr 1
  omega

/-- How many units of the common scale make one. -/
def unit (x : Magnitude) (e : ℤ) : ℚ := 2 ^ (2 - x.exponent).toNat * 10 ^ (-e).toNat

theorem unit_pos (x : Magnitude) (e : ℤ) : 0 < x.unit e := by
  unfold unit
  positivity

theorem scaleQuarters_eq (x : Magnitude) (e : ℤ) (n : Nat) :
    (x.scaleQuarters e n : ℚ) = x.quarters n * x.unit e := by
  have hplace := zpow_mul_pow_toNat_neg (b := 2) (by norm_num) (x.exponent - 2)
  rw [neg_sub] at hplace
  simp only [scaleQuarters, quarters, unit, Nat.pow_eq]
  push_cast
  rw [← hplace]
  ring

theorem scaleDecimal_eq (x : Magnitude) (d : Decimal) :
    (x.scaleDecimal d : ℚ) = d.value * x.unit d.exponent := by
  have hplace := zpow_mul_pow_toNat_neg (b := 10) (by norm_num) d.exponent
  simp only [scaleDecimal, Decimal.value, unit, Nat.pow_eq]
  push_cast
  rw [← hplace]
  ring

theorem scaleQuarters_le_scaleDecimal {n : Nat} :
    x.scaleQuarters d.exponent n ≤ x.scaleDecimal d ↔ x.quarters n ≤ d.value := by
  rw [← Nat.cast_le (α := ℚ), scaleQuarters_eq, scaleDecimal_eq,
    mul_le_mul_iff_left₀ (x.unit_pos d.exponent)]

theorem scaleDecimal_le_scaleQuarters {n : Nat} :
    x.scaleDecimal d ≤ x.scaleQuarters d.exponent n ↔ d.value ≤ x.quarters n := by
  rw [← Nat.cast_le (α := ℚ), scaleQuarters_eq, scaleDecimal_eq,
    mul_le_mul_iff_left₀ (x.unit_pos d.exponent)]

/-- The test for reading back tells whether the decimal rounds to `x`. -/
theorem readsBack_iff : x.readsBack d = true ↔ x.Covers d.value := by
  simp only [readsBack, Covers]
  split
  · simp only [Bool.and_eq_true, decide_eq_true_eq, scaleQuarters_le_scaleDecimal,
      scaleDecimal_le_scaleQuarters]
  · simp only [Bool.and_eq_true, decide_eq_true_eq, ← not_le, scaleQuarters_le_scaleDecimal,
      scaleDecimal_le_scaleQuarters]

/-! ## One grid -/

theorem scaleDecimal_digits (x : Magnitude) (n : Nat) (e : ℤ) :
    x.scaleDecimal ⟨n, e⟩ = n * x.scaleDecimal ⟨1, e⟩ := by
  simp only [scaleDecimal, Nat.one_mul, Nat.mul_assoc]

/-- An answer is a point of its grid that reads back. -/
theorem onGrid?_eq_some (h : x.onGrid? e = some d) : d.exponent = e ∧ x.Covers d.value := by
  unfold onGrid? at h
  extract_lets here gap below fits nearer farther at h
  split at h
  · next hfits =>
    obtain rfl := Option.some.inj h
    exact ⟨rfl, readsBack_iff.mp hfits⟩
  · split at h
    · next hfits =>
      obtain rfl := Option.some.inj h
      exact ⟨rfl, readsBack_iff.mp hfits⟩
    · exact absurd h (by simp)

/-- If a grid has no answer, neither of its two points next to `x` reads back. -/
theorem exists_of_onGrid?_eq_none (h : x.onGrid? e = none) :
    ∃ below : Nat, (⟨below, e⟩ : Decimal).value ≤ x.value ∧
      x.value ≤ (⟨below + 1, e⟩ : Decimal).value ∧
      ¬ x.Covers (⟨below, e⟩ : Decimal).value ∧ ¬ x.Covers (⟨below + 1, e⟩ : Decimal).value := by
  have hgap : 0 < x.scaleDecimal ⟨1, e⟩ := by
    simp only [scaleDecimal, Nat.pow_eq]
    positivity
  have hle := Nat.div_mul_le_self (x.scaleQuarters e (4 * x.significand)) (x.scaleDecimal ⟨1, e⟩)
  have hlt := Nat.lt_mul_div_succ (x.scaleQuarters e (4 * x.significand)) hgap
  unfold onGrid? at h
  dsimp only at h
  generalize x.scaleQuarters e (4 * x.significand) / x.scaleDecimal ⟨1, e⟩ = below at h hle hlt
  rw [← scaleDecimal_digits] at hle
  rw [Nat.mul_comm (x.scaleDecimal _), ← scaleDecimal_digits] at hlt
  refine ⟨below, ?_, ?_, ?_⟩
  · rw [value_eq_quarters]
    exact scaleDecimal_le_scaleQuarters.mp hle
  · rw [value_eq_quarters]
    exact scaleQuarters_le_scaleDecimal.mp hlt.le
  · rw [← readsBack_iff, ← readsBack_iff]
    split_ifs at h <;> simp_all

/-- What a magnitude covers has no gaps. -/
theorem Covers.between {u v w : ℚ} (hu : x.Covers u) (hw : x.Covers w) (huv : u ≤ v)
    (hvw : v ≤ w) : x.Covers v := by
  unfold Covers at *
  split at hu
  · next heven =>
    rw [if_pos heven] at hw ⊢
    exact ⟨hu.1.trans huv, hvw.trans hw.2⟩
  · next hodd =>
    rw [if_neg hodd] at hw ⊢
    exact ⟨hu.1.trans_le huv, hvw.trans_lt hw.2⟩

theorem value_le_value {m n : Nat} (h : m ≤ n) :
    (⟨m, e⟩ : Decimal).value ≤ (⟨n, e⟩ : Decimal).value := by
  have hpos : (0 : ℚ) < 10 ^ e := by positivity
  have hcast : (m : ℚ) ≤ n := Nat.cast_le.mpr h
  exact mul_le_mul_of_nonneg_right hcast hpos.le

/-- A grid without an answer has no point that reads back. -/
theorem not_covers_of_onGrid?_eq_none (h : x.onGrid? e = none) (n : Nat) :
    ¬ x.Covers (⟨n, e⟩ : Decimal).value := by
  intro hcovers
  obtain ⟨below, hle, hge, hbelow, habove⟩ := exists_of_onGrid?_eq_none h
  rcases Nat.lt_or_ge below n with hn | hn
  · exact habove (x.covers_value.between hcovers hge (value_le_value hn))
  · exact hbelow (hcovers.between x.covers_value (value_le_value hn) hle)

/-! ## The search -/

theorem value_exact (x : Magnitude) : x.exact.value = x.value := by
  by_cases hexponent : 0 ≤ x.exponent
  · obtain ⟨k, hk⟩ := Int.eq_ofNat_of_zero_le hexponent
    simp [exact, Decimal.value, value, hk]
  · obtain ⟨k, hk⟩ : ∃ k : Nat, x.exponent = -k := ⟨(-x.exponent).toNat, by omega⟩
    -- a half is five tenths, once for each place
    have hten : (10 : ℚ) ^ k = 2 ^ k * 5 ^ k := by rw [← mul_pow]; norm_num
    rw [exact, if_neg hexponent]
    simp only [Decimal.value, value, hk, neg_neg, Int.toNat_natCast, Nat.pow_eq, zpow_neg,
      zpow_natCast, hten]
    push_cast
    field_simp

theorem covers_search (x : Magnitude) (e : ℤ) (count : Nat) :
    x.Covers (x.search e count).value := by
  induction count generalizing e with
  | zero =>
    rw [search, value_exact]
    exact x.covers_value
  | succ count ih =>
    rw [search]
    cases hgrid : x.onGrid? e with
    | none => exact ih (e - 1)
    | some answer => exact (onGrid?_eq_some hgrid).2

/-- A search that goes down to the exact decimal skips no grid with an answer. -/
theorem exponent_le_search {count : Nat} (hcount : e - count ≤ x.exact.exponent)
    (hd : d.exponent ≤ e) (h : x.Covers d.value) : d.exponent ≤ (x.search e count).exponent := by
  induction count generalizing e with
  | zero =>
    -- there is no grid left between `e` and the exact decimal
    rw [search]
    omega
  | succ count ih =>
    rw [search]
    cases hgrid : x.onGrid? e with
    | none =>
      have hcoarser : d.exponent ≠ e := by
        rintro rfl
        exact not_covers_of_onGrid?_eq_none hgrid d.digits h
      exact ih (by omega) (by omega)
    | some answer =>
      rw [Option.getD_some, (onGrid?_eq_some hgrid).1]
      exact hd

/-- The shortest decimal reads back. -/
theorem covers_shortest (x : Magnitude) : x.Covers x.shortest.value := x.covers_search _ _

/-! ## Coarse grids -/

theorem value_lt_whole_succ (x : Magnitude) : x.value < x.whole + 1 := by
  by_cases hexponent : 0 ≤ x.exponent
  · obtain ⟨k, hk⟩ := Int.eq_ofNat_of_zero_le hexponent
    simp [value, whole, hk]
  · have hpos : 0 < 2 ^ (-x.exponent).toNat := by positivity
    have hnone : x.exponent.toNat = 0 := by omega
    have hwhole : x.whole = x.significand / 2 ^ (-x.exponent).toNat := by
      simp [whole, hnone]
    have hlt : x.significand < (x.whole + 1) * 2 ^ (-x.exponent).toNat := by
      rw [hwhole, Nat.mul_comm]
      exact Nat.lt_mul_div_succ _ hpos
    rw [← Nat.cast_lt (α := ℚ), ← value_mul_pow (not_le.mp hexponent)] at hlt
    push_cast at hlt
    exact lt_of_mul_lt_mul_right hlt (by positivity)

theorem whole_lt (x : Magnitude) : x.whole < 10 ^ x.leadingExponent := by
  unfold leadingExponent
  split
  · next hzero => simp [hzero]
  · exact (Nat.length_toDigits_le_iff (by decide) Nat.length_toDigits_pos).mp le_rfl

theorem value_lt_pow (x : Magnitude) : x.value < 10 ^ x.leadingExponent := by
  have hcast : (x.whole : ℚ) + 1 ≤ 10 ^ x.leadingExponent := by exact_mod_cast x.whole_lt
  exact x.value_lt_whole_succ.trans_le hcast

theorem digits_pos_of_covers (hx : 0 < x.significand) (h : x.Covers d.value) : 0 < d.digits := by
  by_contra hnone
  have hzero : d.value = x.quarters 0 := by
    simp [Decimal.value, quarters, Nat.eq_zero_of_not_pos hnone]
  have hlower := h.lower_le
  rw [hzero, quarters_le_quarters] at hlower
  unfold lowerEnd at hlower
  split at hlower <;> omega

/-- On the grids that the search leaves out, the points are more than twice `x`, or zero. -/
theorem exponent_le_leadingExponent (hx : 0 < x.significand) (h : x.Covers d.value) :
    d.exponent ≤ x.leadingExponent := by
  by_contra hcoarse
  -- a point of such a grid is ten times too large, unless it is zero
  have hdigits : (1 : ℚ) ≤ d.digits := by exact_mod_cast digits_pos_of_covers hx h
  have hgrid : (10 : ℚ) ^ (x.leadingExponent + 1) ≤ d.value := by
    have hpow : (10 : ℚ) ^ ((x.leadingExponent : ℤ) + 1) ≤ 10 ^ d.exponent :=
      zpow_le_zpow_right₀ (by norm_num) (by omega)
    rw [← Nat.cast_succ, zpow_natCast] at hpow
    exact hpow.trans (le_mul_of_one_le_left (by positivity) hdigits)
  have hupper : x.quarters x.upperEnd ≤ 2 * x.value := by
    rw [value_eq_quarters, two_mul, quarters_add, quarters_le_quarters]
    unfold upperEnd
    omega
  have hpow : (0 : ℚ) < 10 ^ x.leadingExponent := by positivity
  rw [pow_succ] at hgrid
  linarith [h.le_upper, x.value_lt_pow]

/-- **The shortest decimal.** No decimal that reads back has fewer places behind the point,
or more zeros in front of it. -/
theorem exponent_le_shortest (hx : 0 < x.significand) (h : x.Covers d.value) :
    d.exponent ≤ x.shortest.exponent := by
  have hexact : -((-x.exponent).toNat : ℤ) ≤ x.exact.exponent := by
    unfold exact
    split <;> dsimp only <;> omega
  exact exponent_le_search (by push_cast; omega) (exponent_le_leadingExponent hx h) h

end Magnitude

end MiniPascal

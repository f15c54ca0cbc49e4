/-
`Interval.lean` -- the numbers that round to a magnitude.

A magnitude covers an interval, from half way to the neighbour below to half way to the
neighbour above, with the two ends if its significand is even. What it covers is therefore
at least as near to it as to any other magnitude (`Covers.nearest`), and is covered by no
other (`Covers.unique`): intervals meet half way at the most, and only if one of the two
significands is odd. So a number that is covered tells which magnitude covers it, and if it
is a natural number then so is the magnitude (`Covers.isWhole`).
-/
import Mathlib.Algebra.Order.Field.Power
import Mathlib.Algebra.Order.Field.Rat
import Mathlib.Tactic.Linarith
import Mathlib.Tactic.Positivity
import Mathlib.Tactic.Ring
import MiniPascal.Binary64.Shortest
import MiniPascal.Proofs.Decoding

set_option autoImplicit false

namespace MiniPascal

namespace Magnitude

/-! ## The interval of a magnitude -/

/-- The number that `x` stands for. -/
def value (x : Magnitude) : ℚ := x.significand * 2 ^ x.exponent

/-- `n` quarters of the last place of `x`. -/
def quarters (x : Magnitude) (n : Nat) : ℚ := n * 2 ^ (x.exponent - 2)

/-- Does `v` round to `x`? The ends of the interval do if the significand is even. -/
def Covers (x : Magnitude) (v : ℚ) : Prop :=
  if x.significand % 2 = 0 then x.quarters x.lowerEnd ≤ v ∧ v ≤ x.quarters x.upperEnd
  else x.quarters x.lowerEnd < v ∧ v < x.quarters x.upperEnd

variable {x y : Magnitude} {v : ℚ}

theorem quarters_lt_quarters {m n : Nat} : x.quarters m < x.quarters n ↔ m < n := by
  have hpos : (0 : ℚ) < 2 ^ (x.exponent - 2) := by positivity
  simp [quarters, mul_lt_mul_iff_left₀ hpos]

theorem quarters_le_quarters {m n : Nat} : x.quarters m ≤ x.quarters n ↔ m ≤ n := by
  have hpos : (0 : ℚ) < 2 ^ (x.exponent - 2) := by positivity
  simp [quarters, mul_le_mul_iff_left₀ hpos]

theorem quarters_add (m n : Nat) : x.quarters m + x.quarters n = x.quarters (m + n) := by
  simp only [quarters]
  push_cast
  ring

/-- How many last places of `x` make one of `y`. -/
def ratio (x y : Magnitude) : Nat := 2 ^ (y.exponent - x.exponent).toNat

theorem quarters_ratio (h : x.exponent ≤ y.exponent) (n : Nat) :
    y.quarters n = x.quarters (n * ratio x y) := by
  have hsplit : y.exponent - 2 = ((y.exponent - x.exponent).toNat : ℤ) + (x.exponent - 2) := by
    omega
  rw [quarters, hsplit, zpow_add₀ (by norm_num), zpow_natCast, quarters, ratio]
  push_cast
  ring

theorem value_eq_quarters (x : Magnitude) : x.value = x.quarters (4 * x.significand) := by
  have hsplit : x.exponent = (x.exponent - 2) + 2 := by omega
  rw [value, hsplit, zpow_add₀ (by norm_num), quarters]
  push_cast
  ring_nf

/-- A magnitude covers itself. -/
theorem covers_value (x : Magnitude) : x.Covers x.value := by
  have hlower : x.lowerEnd ≤ 4 * x.significand := by unfold lowerEnd; split <;> omega
  have hupper : 4 * x.significand < x.upperEnd := by unfold upperEnd; omega
  rw [value_eq_quarters]
  unfold Covers
  split
  · exact ⟨quarters_le_quarters.mpr hlower, quarters_le_quarters.mpr hupper.le⟩
  · have hproper : x.lowerEnd < 4 * x.significand := by unfold lowerEnd; split <;> omega
    exact ⟨quarters_lt_quarters.mpr hproper, quarters_lt_quarters.mpr hupper⟩

theorem Covers.le_upper (h : x.Covers v) : v ≤ x.quarters x.upperEnd := by
  unfold Covers at h
  split at h
  · exact h.2
  · exact h.2.le

theorem Covers.lower_le (h : x.Covers v) : x.quarters x.lowerEnd ≤ v := by
  unfold Covers at h
  split at h
  · exact h.1
  · exact h.1.le

/-! ## Intervals do not overlap -/

/-- The order of the magnitudes that have bits: first by exponent, then by significand. -/
def Before (x y : Magnitude) : Prop :=
  x.exponent < y.exponent ∨ x.exponent = y.exponent ∧ x.significand < y.significand

/-- An interval reaches at most half way to another magnitude, on either side. -/
theorem ends_le_midpoint (hx : x.Representable) (hy : y.Representable) (h : Before x y) :
    2 * x.upperEnd ≤ 4 * x.significand + 4 * (y.significand * ratio x y) ∧
      4 * x.significand + 4 * (y.significand * ratio x y) ≤ 2 * (y.lowerEnd * ratio x y) := by
  obtain ⟨hlt, hle, -⟩ := hx
  rcases h with hexponent | ⟨hexponent, hsignificand⟩
  · -- the significand of `y` has all its digits, so it is at least half of any other
    have hnormal := hy.normal (lt_of_le_of_lt hle hexponent)
    have htwo : 2 ≤ ratio x y := Nat.le_self_pow (by omega) 2
    have hpow : Nat.pow 2 52 = 2 ^ 52 := rfl
    obtain ⟨n, hn⟩ : ∃ n, y.significand = n + 1 := ⟨y.significand - 1, by omega⟩
    have hdouble : n * 2 ≤ n * ratio x y := Nat.mul_le_mul_left n htwo
    unfold upperEnd lowerEnd
    split
    · have hlower : 4 * y.significand - 1 = 4 * n + 3 := by omega
      rw [hlower, hn, Nat.add_mul, Nat.add_mul, Nat.mul_assoc]
      constructor <;> omega
    · have hlower : 4 * y.significand - 2 = 4 * n + 2 := by omega
      rw [hlower, hn, Nat.add_mul, Nat.add_mul, Nat.mul_assoc]
      constructor <;> omega
  · rw [ratio, hexponent, sub_self, Int.toNat_zero, pow_zero, mul_one, mul_one]
    unfold upperEnd lowerEnd
    split <;> constructor <;> omega

/-- There is a gap between the intervals of two even significands: if one met the other, it
would do so half way, and the significands would differ by an odd number of places. -/
theorem upperEnd_lt_lowerEnd (hx : x.Representable) (hy : y.Representable) (h : Before x y)
    (hevenX : x.significand % 2 = 0) (hevenY : y.significand % 2 = 0) :
    x.upperEnd < y.lowerEnd * ratio x y := by
  obtain ⟨hupper, hlower⟩ := ends_le_midpoint hx hy h
  by_contra hmeet
  -- both bounds are attained, so the midpoint is an odd number of places above `x`
  obtain ⟨j, hj⟩ : ∃ j, y.significand = 2 * j := ⟨y.significand / 2, by omega⟩
  have hodd : x.significand + 1 = y.significand * ratio x y := by
    unfold upperEnd at hupper hmeet
    omega
  rw [hj, Nat.mul_assoc] at hodd
  omega

/-- Half way between two magnitudes is above the one interval and below the other. -/
theorem upper_le_midpoint (hx : x.Representable) (hy : y.Representable) (h : Before x y) :
    2 * x.quarters x.upperEnd ≤ x.value + y.value ∧
      x.value + y.value ≤ 2 * y.quarters y.lowerEnd := by
  have hle : x.exponent ≤ y.exponent := by unfold Before at h; omega
  have hends := ends_le_midpoint hx hy h
  rw [value_eq_quarters, value_eq_quarters, quarters_ratio hle, quarters_ratio hle, two_mul,
    two_mul, quarters_add, quarters_add, quarters_add, quarters_le_quarters,
    quarters_le_quarters]
  rw [two_mul, two_mul, ← Nat.mul_assoc] at hends
  exact hends

theorem Covers.not_covers_of_before (hx : x.Representable) (hy : y.Representable)
    (h : Before x y) (hv : x.Covers v) : ¬ y.Covers v := by
  intro hv'
  have hmid := upper_le_midpoint hx hy h
  by_cases heven : x.significand % 2 = 0 ∧ y.significand % 2 = 0
  · have hle : x.exponent ≤ y.exponent := by unfold Before at h; omega
    have hgap := upperEnd_lt_lowerEnd hx hy h heven.1 heven.2
    rw [← quarters_lt_quarters (x := x), ← quarters_ratio hle] at hgap
    linarith [hv.le_upper, hv'.lower_le]
  · -- the end of an odd significand is not covered
    have hbelow := hv.le_upper
    have habove := hv'.lower_le
    unfold Covers at hv hv'
    split at hv <;> split at hv'
    · exact heven ⟨‹_›, ‹_›⟩
    all_goals linarith [hv.1, hv.2, hv'.1, hv'.2]

theorem before_or_before (x y : Magnitude) : Before x y ∨ Before y x ∨ x = y := by
  unfold Before
  rw [Magnitude.mk.injEq]
  omega

/-- No number rounds to two magnitudes. -/
theorem Covers.unique (hx : x.Representable) (hy : y.Representable) (hv : x.Covers v)
    (hv' : y.Covers v) : x = y := by
  rcases before_or_before x y with h | h | h
  · exact absurd hv' (hv.not_covers_of_before hx hy h)
  · exact absurd hv (hv'.not_covers_of_before hy hx h)
  · exact h

/-- A magnitude is at least as near to what it covers as any other. -/
theorem Covers.nearest (hx : x.Representable) (hy : y.Representable) (hv : x.Covers v) :
    |v - x.value| ≤ |v - y.value| := by
  rcases before_or_before x y with h | h | rfl
  · have hmid := upper_le_midpoint hx hy h
    have hfar : y.value - v ≤ |v - y.value| := by
      rw [abs_sub_comm]
      exact le_abs_self _
    rw [abs_le]
    constructor <;> linarith [hv.le_upper, x.covers_value.le_upper]
  · have hmid := upper_le_midpoint hy hx h
    have hfar : v - y.value ≤ |v - y.value| := le_abs_self _
    rw [abs_le]
    constructor <;> linarith [hv.lower_le, x.covers_value.lower_le]
  · exact le_rfl

/-! ## Natural numbers -/

/-- Below the point, the number is its significand divided by a power of two. -/
theorem value_mul_pow (h : x.exponent < 0) :
    x.value * 2 ^ (-x.exponent).toNat = x.significand := by
  have hexponent : x.exponent = -((-x.exponent).toNat : ℤ) := by omega
  rw [value, mul_assoc]
  nth_rewrite 1 [hexponent]
  rw [zpow_neg, zpow_natCast, inv_mul_cancel₀ (by positivity), mul_one]

theorem value_eq_whole (h : x.isWhole = true) : x.value = x.whole := by
  by_cases hexponent : 0 ≤ x.exponent
  · obtain ⟨k, hk⟩ := Int.eq_ofNat_of_zero_le hexponent
    simp [value, whole, hk]
  · have hnone : x.exponent.toNat = 0 := by omega
    have hdvd : 2 ^ (-x.exponent).toNat ∣ x.significand := by
      simpa [isWhole, hexponent, Nat.dvd_iff_mod_eq_zero] using h
    obtain ⟨n, hn⟩ := hdvd
    have hvalue := value_mul_pow (not_le.mp hexponent)
    have hwhole : x.whole = n := by
      simp [whole, hnone, hn]
    rw [hwhole]
    rw [hn] at hvalue
    push_cast at hvalue
    have hpos : (0 : ℚ) < 2 ^ (-x.exponent).toNat := by positivity
    nlinarith

/-- If a natural number rounds to a magnitude, the magnitude is a natural number: next to
one that is not, the closest natural number is at least a whole last place away. -/
theorem Covers.isWhole {n : Nat} (h : x.Covers n) : x.isWhole = true := by
  by_cases hexponent : 0 ≤ x.exponent
  · simp [Magnitude.isWhole, hexponent]
  · have hquarters : (n : ℚ) = x.quarters (4 * (n * 2 ^ (-x.exponent).toNat)) := by
      have hvalue := value_mul_pow (x := ⟨n * 2 ^ (-x.exponent).toNat, x.exponent⟩)
        (not_le.mp hexponent)
      have hpos : (0 : ℚ) < 2 ^ (-x.exponent).toNat := by positivity
      rw [value_eq_quarters] at hvalue
      push_cast at hvalue
      exact (mul_right_cancel₀ hpos.ne' hvalue).symm
    -- four divides both the number and the middle of the interval, which is four wide
    have hlower := h.lower_le
    have hupper := h.le_upper
    rw [hquarters, quarters_le_quarters] at hlower hupper
    have hsignificand : x.significand = n * 2 ^ (-x.exponent).toNat := by
      unfold lowerEnd at hlower
      unfold upperEnd at hupper
      split at hlower <;> omega
    simp [Magnitude.isWhole, hsignificand]

end Magnitude
end MiniPascal

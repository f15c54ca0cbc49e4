/-
`Numeral.lean` -- positional form and the numerals of magnitudes.

Positional form can be read: take the digits on both sides of the point together and count
those behind it (`Decimal.ofChars`). This gives the number that was written
(`Decimal.value_ofChars_chars`), though not always the same decimal, since zeros fill up to
the units. The `numeral` of a magnitude is its text without the sign, written out for a whole
number and as short as possible for any other. Either way it is read as a number that the
magnitude covers, so different magnitudes have different numerals (`numeral_injective`), and
either way it has a point. What a reader can rely on is collected for the texts of finite
reals (`Number.text_real_reads_back`).
-/
import Mathlib.Data.List.TakeWhile
import MiniPascal.Number
import MiniPascal.Proofs.ShortestDecimal

set_option autoImplicit false

namespace MiniPascal

/-! ## Reading positional form -/

theorem bne_of_notMem {c : Char} {cs : List Char} (h : c ∉ cs) : ∀ d ∈ cs, (d != c) = true := by
  intro d hd
  rw [bne_iff_ne]
  rintro rfl
  exact h hd

/-- The part before the first `c`. -/
theorem takeWhile_bne {c : Char} {before : List Char} (h : c ∉ before) (after : List Char) :
    (before ++ c :: after).takeWhile (· != c) = before := by
  rw [List.takeWhile_append_of_pos (bne_of_notMem h), List.takeWhile_cons_of_neg (by simp),
    List.append_nil]

namespace Decimal

/-- The decimal that a positional form stands for: the digits on both sides of the point, and
as many decimal places as there are digits after it. -/
def ofChars (cs : List Char) : Decimal :=
  let before := cs.takeWhile (· != '.')
  let after := cs.drop (before.length + 1)
  ⟨Nat.ofDigitChars 10 (before ++ after) 0, -after.length⟩

theorem ofChars_append {before : List Char} (h : '.' ∉ before) (after : List Char) :
    ofChars (before ++ '.' :: after) =
      ⟨Nat.ofDigitChars 10 (before ++ after) 0, -after.length⟩ := by
  simp [ofChars, takeWhile_bne h]

theorem ofChars_digits {digits : List Char} (h : '.' ∉ digits) :
    ofChars digits = ⟨Nat.ofDigitChars 10 digits 0, 0⟩ := by
  have htake : digits.takeWhile (· != '.') = digits :=
    List.takeWhile_eq_self_iff.mpr (bne_of_notMem h)
  simp [ofChars, htake, List.drop_eq_nil_of_le]

theorem splitAtPoint_append (places : Nat) (digits : List Char) :
    (splitAtPoint places digits).1 ++ (splitAtPoint places digits).2 =
      digits.leftpad (places + 1) '0' :=
  List.take_append_drop _ _

theorem length_splitAtPoint (places : Nat) (digits : List Char) :
    (splitAtPoint places digits).2.length = places := by
  have hlength : places ≤ (digits.leftpad (places + 1) '0').length := by
    rw [List.length_leftpad]
    omega
  simp only [splitAtPoint, List.length_drop]
  omega

theorem ofDigitChars_leftpad (n k : Nat) :
    Nat.ofDigitChars 10 ((Nat.toDigits 10 n).leftpad k '0') 0 = n := by
  rw [List.leftpad, Nat.ofDigitChars_append, Nat.ofDigitChars_replicate_zero, mul_zero]
  exact Nat.ofDigitChars_ten_toDigits

theorem isDigit_of_mem_leftpad {n k : Nat} {c : Char}
    (h : c ∈ (Nat.toDigits 10 n).leftpad k '0') : c.isDigit = true := by
  rcases List.mem_append.mp h with hpad | hdigit
  · rw [List.eq_of_mem_replicate hpad]
    decide
  · exact Nat.isDigit_of_mem_toDigits (by decide) (by decide) hdigit

theorem point_notMem_of_isDigit {cs : List Char} (h : ∀ c ∈ cs, c.isDigit = true) :
    '.' ∉ cs := by
  intro hpoint
  exact absurd (h '.' hpoint) (by decide)

theorem point_notMem_toDigits (n : Nat) : '.' ∉ Nat.toDigits 10 n :=
  point_notMem_of_isDigit fun _ => Nat.isDigit_of_mem_toDigits (by decide) (by decide)

/-- With digits behind the point, positional form keeps the decimal. -/
theorem ofChars_chars {d : Decimal} (h : d.exponent < 0) : ofChars d.chars = d := by
  have hplaces : -((-d.exponent).toNat : ℤ) = d.exponent := by omega
  have hpoint : '.' ∉ (splitAtPoint (-d.exponent).toNat (Nat.toDigits 10 d.digits)).1 :=
    point_notMem_of_isDigit fun c hc => isDigit_of_mem_leftpad (List.mem_of_mem_take hc)
  unfold chars
  dsimp only
  -- zeros in front of the digits are nothing, and the rest is only cut in two
  rw [if_neg (not_le.mpr h), ofChars_append hpoint, splitAtPoint_append, ofDigitChars_leftpad,
    length_splitAtPoint, hplaces]

/-- Positional form keeps the value. -/
theorem value_ofChars_chars (d : Decimal) : (ofChars d.chars).value = d.value := by
  by_cases hexponent : 0 ≤ d.exponent
  · -- zeros behind the digits are so many factors ten
    obtain ⟨k, hk⟩ := Int.eq_ofNat_of_zero_le hexponent
    have hpoint : '.' ∉ Nat.toDigits 10 d.digits ++ List.replicate d.exponent.toNat '0' := by
      simp [point_notMem_toDigits]
    unfold chars
    dsimp only
    rw [if_pos hexponent, ofChars_digits hpoint, Nat.ofDigitChars_append,
      Nat.ofDigitChars_replicate_zero, Nat.ofDigitChars_ten_toDigits]
    simp [value, hk, mul_comm]
  · rw [ofChars_chars (not_le.mp hexponent)]

theorem mem_chars {d : Decimal} {c : Char} (h : c ∈ d.chars) : c.isDigit = true ∨ c = '.' := by
  unfold chars at h
  dsimp only at h
  split at h
  · rcases List.mem_append.mp h with hdigit | hzero
    · exact .inl (Nat.isDigit_of_mem_toDigits (by decide) (by decide) hdigit)
    · rw [List.eq_of_mem_replicate hzero]
      exact .inl (by decide)
  · rcases List.mem_append.mp h with hbefore | hrest
    · exact .inl (isDigit_of_mem_leftpad (List.mem_of_mem_take hbefore))
    · rcases List.mem_cons.mp hrest with hpoint | hafter
      · exact .inr hpoint
      · exact .inl (isDigit_of_mem_leftpad (List.mem_of_mem_drop hafter))

/-- Only a decimal with an exponent below zero has a point. -/
theorem point_mem_chars {d : Decimal} (h : d.exponent < 0) : '.' ∈ d.chars := by
  unfold chars
  dsimp only
  rw [if_neg (not_le.mpr h)]
  simp

end Decimal

/-! ## Numerals -/

namespace Magnitude

variable {x y : Magnitude}

/-- The text of a real without its sign: a whole number is written out, with a zero behind
the point, and any other is written with the fewest digits. -/
def numeral (x : Magnitude) : List Char :=
  if x.isWhole then Nat.toDigits 10 x.whole ++ ['.', '0'] else x.shortest.chars

/-- The shortest decimal of a number that is not whole is not whole either. -/
theorem exponent_shortest_neg (h : x.isWhole = false) : x.shortest.exponent < 0 := by
  by_contra hexponent
  obtain ⟨k, hk⟩ := Int.eq_ofNat_of_zero_le (not_lt.mp hexponent)
  have hvalue : x.shortest.value = (x.shortest.digits * 10 ^ k : Nat) := by
    simp [Decimal.value, hk]
  have hcovers : x.Covers (x.shortest.digits * 10 ^ k : Nat) := hvalue ▸ x.covers_shortest
  simp [hcovers.isWhole] at h

theorem mem_numeral {c : Char} (h : c ∈ x.numeral) : c.isDigit = true ∨ c = '.' := by
  unfold numeral at h
  split at h
  · rcases List.mem_append.mp h with hdigit | hrest
    · exact .inl (Nat.isDigit_of_mem_toDigits (by decide) (by decide) hdigit)
    · simp only [List.mem_cons, List.not_mem_nil, or_false] at hrest
      rcases hrest with rfl | rfl <;> decide
  · exact Decimal.mem_chars h

theorem point_mem_numeral (x : Magnitude) : '.' ∈ x.numeral := by
  unfold numeral
  split
  · simp
  · next h => exact Decimal.point_mem_chars (exponent_shortest_neg (by simpa using h))

/-- The numeral of a whole number is read as that number. -/
theorem value_numeral_of_isWhole (h : x.isWhole = true) :
    (Decimal.ofChars x.numeral).value = x.value := by
  have hzero : Nat.ofDigitChars 10 ['0'] x.whole = x.whole * 10 := Nat.mul_comm 10 _
  rw [numeral, if_pos h, Decimal.ofChars_append (Decimal.point_notMem_toDigits _),
    Nat.ofDigitChars_append, Nat.ofDigitChars_ten_toDigits, hzero, value_eq_whole h]
  simp [Decimal.value]

/-- The numeral of any other number is read as its shortest decimal. -/
theorem ofChars_numeral (h : x.isWhole = false) : Decimal.ofChars x.numeral = x.shortest := by
  rw [numeral, h, if_neg Bool.false_ne_true, Decimal.ofChars_chars (exponent_shortest_neg h)]

/-- A numeral is read as a number that rounds to its magnitude. -/
theorem covers_numeral (x : Magnitude) : x.Covers (Decimal.ofChars x.numeral).value := by
  cases h : x.isWhole with
  | true =>
    rw [value_numeral_of_isWhole h]
    exact x.covers_value
  | false =>
    rw [ofChars_numeral h]
    exact x.covers_shortest

/-- **Numerals tell magnitudes apart.** -/
theorem numeral_injective (hx : x.Representable) (hy : y.Representable)
    (h : x.numeral = y.numeral) : x = y :=
  Covers.unique hx hy x.covers_numeral (h ▸ y.covers_numeral)

/-- So do their shortest decimals. -/
theorem chars_shortest_injective (hx : x.Representable) (hy : y.Representable)
    (h : x.shortest.chars = y.shortest.chars) : x = y := by
  have hvalue : x.shortest.value = y.shortest.value := by
    rw [← Decimal.value_ofChars_chars, h, Decimal.value_ofChars_chars]
  exact Covers.unique hx hy x.covers_shortest (hvalue ▸ y.covers_shortest)

theorem significand_pos (h : x.isWhole = false) : 0 < x.significand := by
  by_contra hnone
  simp [isWhole, Nat.eq_zero_of_not_pos hnone] at h

end Magnitude

/-! ## Texts of reals -/

namespace Number

/-- A finite real is written as its sign and its numeral. -/
theorem toList_realText_finite (negative : Bool) (x : Magnitude) :
    (realText (.finite negative x)).toList = (Binary64.signText negative).toList ++ x.numeral := by
  simp only [realText, Binary64.text, Magnitude.numeral]
  split
  · simp [String.toList_append, Nat.toString_eq_repr, Nat.toList_repr]
  · simp [String.toList_append, Decimal.text]

/-- **The text of a real.** Behind the sign stands a numeral. No real is nearer to the number that
it is read as than the one that was written. If that is whole the numeral is exact, and if not,
no decimal that rounds to it has fewer places behind the point. -/
theorem text_real_reads_back {value : Float} {negative : Bool} {x : Magnitude}
    (h : Binary64.ofFloat value = .finite negative x) : ∃ numeral : List Char,
      (real value).text.toList = (Binary64.signText negative).toList ++ numeral ∧
      (∀ y : Magnitude, y.Representable →
        |(Decimal.ofChars numeral).value - x.value| ≤ |(Decimal.ofChars numeral).value - y.value|) ∧
      (x.isWhole = true → (Decimal.ofChars numeral).value = x.value) ∧
      (x.isWhole = false → ∀ d : Decimal, x.Covers d.value →
        d.exponent ≤ (Decimal.ofChars numeral).exponent) := by
  refine ⟨x.numeral, ?_, fun y hy => ?_, Magnitude.value_numeral_of_isWhole,
    fun hwhole d hd => ?_⟩
  · rw [text, h, toList_realText_finite]
  · exact x.covers_numeral.nearest (Binary64.representable_ofBits h) hy
  · rw [Magnitude.ofChars_numeral hwhole]
    exact Magnitude.exponent_le_shortest (Magnitude.significand_pos hwhole) hd

end Number

end MiniPascal

/-
`Decoding.lean` -- reals and what is read from their bits.

`Binary64.ofBits` takes a pattern of 64 bits apart. From the parts the pattern can be put
together again (`bits`), unless they say that it is no number, and the machine agrees on
when they do (`ofFloat_eq_nan_iff`). The machine has one pattern for what is no number, so two
reals are the same if the same is read from them (`ofFloat_injective`). The magnitudes that
occur are the representable ones: fifty-three bits, of which the first is set above the
smallest exponent.
-/
import Mathlib.Data.Nat.Notation
import Mathlib.Tactic.NormNum
import Mathlib.Tactic.SplitIfs
import MiniPascal.Binary64

set_option autoImplicit false

namespace MiniPascal

/-! ## Bits -/

/-- The magnitudes that have a pattern of 64 bits: all but the smallest exponent leave no
room for a leading zero. -/
structure Magnitude.Representable (x : Magnitude) : Prop where
  lt : x.significand < 2 ^ 53
  le : -1074 ≤ x.exponent
  normal : -1074 < x.exponent → 2 ^ 52 ≤ x.significand

namespace Binary64

/-- The pattern of 64 bits that is read as `x`, if `x` is a number. -/
def bits : Binary64 → Nat
  | nan => 0
  | infinite negative => (if negative then 2 ^ 63 else 0) + 2047 * 2 ^ 52
  | finite negative size =>
    (if negative then 2 ^ 63 else 0) +
      if size.significand < 2 ^ 52 then size.significand
      else (size.exponent + 1075).toNat * 2 ^ 52 + (size.significand - 2 ^ 52)

theorem representable_ofBits {n : Nat} {negative : Bool} {size : Magnitude}
    (h : ofBits n = finite negative size) : size.Representable := by
  have hexponent : biasedExponent n < 2 ^ 11 := Nat.mod_lt _ (by decide)
  have hfraction : fraction n < 2 ^ 52 := Nat.mod_lt _ (by decide)
  unfold ofBits at h
  dsimp only at h
  generalize biasedExponent n = e at *
  generalize fraction n = f at *
  split_ifs at h with hspecial hzero hsubnormal
  · cases h
    exact ⟨by dsimp only; omega, by norm_num, by norm_num⟩
  · cases h
    refine ⟨?_, ?_, ?_⟩ <;> simp only [Nat.pow_eq] <;> omega

/-- What is read from bits determines them, if it is a number. -/
theorem bits_ofBits {n : Nat} (hn : n < 2 ^ 64) (h : ofBits n ≠ nan) : (ofBits n).bits = n := by
  have hfields : n = (n / 2 ^ 63 * 2 ^ 11 + biasedExponent n) * 2 ^ 52 + fraction n := by
    simp only [biasedExponent, fraction, Nat.pow_eq]
    omega
  have hexponent : biasedExponent n < 2 ^ 11 := Nat.mod_lt _ (by decide)
  have hfraction : fraction n < 2 ^ 52 := Nat.mod_lt _ (by decide)
  unfold ofBits at h ⊢
  dsimp only at h ⊢
  -- from here on it is arithmetic on the three fields
  generalize biasedExponent n = e at *
  generalize fraction n = f at *
  have hsign :
      (if decide (Nat.pow 2 63 ≤ n) = true then 2 ^ 63 else 0) = n / 2 ^ 63 * 2 ^ 63 := by
    simp only [Nat.pow_eq, decide_eq_true_eq]
    split <;> omega
  split_ifs at h ⊢ with hspecial hzero hsubnormal
  · simp only [bits, hsign]
    omega
  · exact absurd rfl h
  · simp only [bits, hsign, if_pos hfraction]
    omega
  · simp only [bits, hsign, Nat.pow_eq, if_neg (Nat.not_lt.mpr (Nat.le_add_right _ _))]
    omega

/-! ## No number -/

theorem ofBits_eq_nan_iff {n : Nat} :
    ofBits n = nan ↔ biasedExponent n = 2047 ∧ fraction n ≠ 0 := by
  unfold ofBits
  dsimp only
  split_ifs <;> simp_all

open Float.Model in
theorem isNaN_unpack_iff {bits : BitVec 64} :
    (UnpackedFloat.unpack Format.binary64 bits).isNaN = true ↔
      @UnpackedFloat.unpackExponent Format.binary64 bits = -1#11 ∧
        @UnpackedFloat.unpackMantissa Format.binary64 bits ≠ 0#52 := by
  unfold UnpackedFloat.unpack
  dsimp only
  by_cases hexponent : @UnpackedFloat.unpackExponent Format.binary64 bits = -1#11
  · rw [if_pos hexponent]
    by_cases hmantissa : @UnpackedFloat.unpackMantissa Format.binary64 bits = 0#52
    · rw [if_pos hmantissa]
      exact iff_of_false Bool.false_ne_true fun h => h.2 hmantissa
    · rw [if_neg hmantissa]
      exact iff_of_true rfl ⟨hexponent, hmantissa⟩
  · rw [if_neg hexponent]
    -- below the largest exponent everything is a number
    refine iff_of_false ?_ fun h => hexponent h.1
    by_cases hzero : @UnpackedFloat.unpackExponent Format.binary64 bits = 0#11
    · rw [if_pos hzero]
      by_cases hmantissa : @UnpackedFloat.unpackMantissa Format.binary64 bits = 0#52
      · rw [dif_pos hmantissa]
        exact Bool.false_ne_true
      · rw [dif_neg hmantissa]
        exact Bool.false_ne_true
    · rw [if_neg hzero]
      exact Bool.false_ne_true

open Float.Model in
/-- What is decoded is not a number exactly if the machine says so. -/
theorem ofFloat_eq_nan_iff {x : Float} : ofFloat x = nan ↔ x.isNaN = true := by
  have hexponent :
      @UnpackedFloat.unpackExponent Format.binary64 x.toBits.toBitVec = -1#11 ↔
        biasedExponent x.toBits.toNat = 2047 := by
    rw [← BitVec.toNat_inj]
    simp [UnpackedFloat.unpackExponent, biasedExponent, Nat.shiftRight_eq_div_pow]
  have hfraction :
      @UnpackedFloat.unpackMantissa Format.binary64 x.toBits.toBitVec = 0#52 ↔
        fraction x.toBits.toNat = 0 := by
    rw [← BitVec.toNat_inj]
    simp [UnpackedFloat.unpackMantissa, fraction]
  -- the machine's test is modelled on its own decoding, which has the same fields
  have hmachine : x.isNaN = (UnpackedFloat.unpack Format.binary64 x.toBits.toBitVec).isNaN := rfl
  rw [hmachine, isNaN_unpack_iff, hexponent, Ne, hfraction, ofFloat, ofBits_eq_nan_iff]

theorem ofFloat_ne_nan {x : Float} (h : x.isNaN = false) : ofFloat x ≠ nan := by
  intro hnan
  rw [ofFloat_eq_nan_iff.mp hnan] at h
  exact Bool.noConfusion h

/-! ## Reals -/

theorem eq_of_toBits_eq {x y : Float} (h : x.toBits = y.toBits) : x = y := by
  obtain ⟨⟨b, hb⟩⟩ := x
  obtain ⟨⟨c, hc⟩⟩ := y
  have hbits : b = c := h
  subst hbits
  rfl

open Float.Model in
/-- There is one real only that is no number. -/
theorem eq_of_isNaN {x y : Float} (hx : x.isNaN = true) (hy : y.isNaN = true) : x = y := by
  obtain ⟨⟨b, hb⟩⟩ := x
  obtain ⟨⟨c, hc⟩⟩ := y
  obtain ⟨hexponent, hmantissa⟩ := isNaN_unpack_iff.mp hx
  obtain ⟨hexponent', hmantissa'⟩ := isNaN_unpack_iff.mp hy
  have hbits : b.toBitVec = c.toBitVec := (hb.eq_packedNaN hexponent hmantissa).trans
    (hc.eq_packedNaN hexponent' hmantissa').symm
  exact eq_of_toBits_eq (UInt64.toBitVec_inj.mp hbits)

/-- Reals are told apart by what is read from them. -/
theorem ofFloat_injective : Function.Injective ofFloat := by
  intro x y h
  cases hx : x.isNaN with
  | true =>
    have hnan := ofFloat_eq_nan_iff.mpr hx
    exact eq_of_isNaN hx (ofFloat_eq_nan_iff.mp (h ▸ hnan))
  | false =>
    have hxnan := ofFloat_ne_nan hx
    have hynan : ofFloat y ≠ nan := h ▸ hxnan
    have hbits : x.toBits.toNat = y.toBits.toNat := calc
      x.toBits.toNat = (ofFloat x).bits := (bits_ofBits x.toBits.toNat_lt hxnan).symm
      _ = (ofFloat y).bits := by rw [h]
      _ = y.toBits.toNat := bits_ofBits y.toBits.toNat_lt hynan
    exact eq_of_toBits_eq (UInt64.toNat_inj.mp hbits)

end Binary64

end MiniPascal

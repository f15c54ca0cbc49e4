/-
`Binary64.lean` -- what the 64 bits of a real number stand for.

The arithmetic of reals is the machine's. This file reads the bits where the
machine's operations do not say enough: to print a value one has to know the exact
number behind it, and to drop a fraction one has to know where the fraction is.
Both are done on the naturals, with their own power `Nat.pow`, so that the meaning
does not depend on the algebra that a reader of this file has at hand. The fields of
the pattern, from the top, are one sign bit, eleven bits of biased exponent and
fifty-two bits of fraction.
-/

import MiniPascal.Decimal

set_option autoImplicit false

namespace MiniPascal

/-- The size of a finite real: `significand · 2 ^ exponent`. -/
structure Magnitude where
  significand : Nat
  exponent : Int
deriving DecidableEq, Repr

/-- A real number, decoded. -/
inductive Binary64 where
  | nan
  | infinite (negative : Bool)
  | finite (negative : Bool) (size : Magnitude)
deriving DecidableEq, Repr

namespace Binary64

/-! ## Decoding -/

/-- The eleven exponent bits of a pattern. -/
def biasedExponent (bits : Nat) : Nat := bits / Nat.pow 2 52 % Nat.pow 2 11

/-- The fifty-two fraction bits of a pattern. -/
def fraction (bits : Nat) : Nat := bits % Nat.pow 2 52

/-- Reads a pattern of 64 bits. Exponent zero holds the subnormal numbers, which
have no implicit leading bit; the largest exponent holds no finite number. -/
def ofBits (bits : Nat) : Binary64 :=
  let negative := Nat.pow 2 63 ≤ bits
  let e := biasedExponent bits
  let f := fraction bits
  if e = 2047 then if f = 0 then .infinite negative else .nan
  else if e = 0 then .finite negative ⟨f, -1074⟩
  else .finite negative ⟨Nat.pow 2 52 + f, e - 1075⟩

/-- The number that a machine real stands for. -/
def ofFloat (x : Float) : Binary64 := ofBits x.toBits.toNat

/-! ## Truncation -/

/-- Clears the fraction of a pattern. Below one nothing but the sign is left; from
`2 ^ 52` on there is no fraction to clear, and in between the lowest
`1075 - e` bits stand for it. -/
def truncateBits (bits : Nat) : Nat :=
  let e := biasedExponent bits
  if e < 1023 then bits / Nat.pow 2 63 * Nat.pow 2 63
  else if e < 1075 then bits / Nat.pow 2 (1075 - e) * Nat.pow 2 (1075 - e)
  else bits

/-- The integral part, toward zero. The sign survives also where it is all that
survives, and what is not finite stays as it is. -/
def truncate (x : Float) : Float :=
  Float.ofBits (UInt64.ofNat (truncateBits x.toBits.toNat))

end Binary64

namespace Magnitude

/-! ## Exact decimals -/

/-- Has the number no fractional part? -/
def isWhole (x : Magnitude) : Bool :=
  0 ≤ x.exponent || x.significand % Nat.pow 2 (-x.exponent).toNat == 0

/-- The whole number that `x` is, if it is one. -/
def whole (x : Magnitude) : Nat :=
  x.significand * Nat.pow 2 x.exponent.toNat / Nat.pow 2 (-x.exponent).toNat

/-- The decimal equal to `x`. There is always one, since a half is five tenths. -/
def exact (x : Magnitude) : Decimal :=
  if 0 ≤ x.exponent then ⟨x.significand * Nat.pow 2 x.exponent.toNat, 0⟩
  else ⟨x.significand * Nat.pow 5 (-x.exponent).toNat, x.exponent⟩

end Magnitude

end MiniPascal

/-
`Decimal.lean` -- non-negative decimal numbers and their positional form.

A decimal is a natural number of digits scaled by a power of ten. It is written
without an exponent, whatever its size: trailing zeros fill up to the units, and
leading zeros fill down from them. `text` is all the layout there is; which digits
a value deserves is decided elsewhere.
-/

set_option autoImplicit false

namespace MiniPascal

/-- `digits · 10 ^ exponent`. -/
structure Decimal where
  digits : Nat
  exponent : Int
deriving DecidableEq, Repr

namespace Decimal

/-- All digits of a decimal with `places` digits after the point: at least one of
them stands before it. -/
def splitAtPoint (places : Nat) (digits : List Char) : List Char × List Char :=
  let padded := digits.leftpad (places + 1) '0'
  (padded.take (padded.length - places), padded.drop (padded.length - places))

/-- The positional form: `d` digits and zeros if the exponent is not negative, and
digits on both sides of a point otherwise. -/
def chars (d : Decimal) : List Char :=
  let digits := Nat.toDigits 10 d.digits
  if 0 ≤ d.exponent then digits ++ List.replicate d.exponent.toNat '0'
  else
    let (before, after) := splitAtPoint (-d.exponent).toNat digits
    before ++ '.' :: after

/-- The positional form as a string. -/
def text (d : Decimal) : String := String.ofList d.chars

end Decimal

end MiniPascal

/-
`Number.lean` -- the values that expressions have.

A value is a 64-bit integer or a 64-bit real, and it keeps its kind: `4` and `4.0`
are different values. Their texts keep the kinds apart too. A whole real is written
out exactly, digit by digit, and ends in `.0`; any other finite real is written with
the fewest digits that read back, and these include a point, since a number that is
not whole never reads back from a whole decimal.
-/
import MiniPascal.Binary64.Shortest

set_option autoImplicit false

namespace MiniPascal

/-- The value of an expression. -/
inductive Number where
  | integer (value : Int64)
  | real (value : Float)
deriving BEq

namespace Number

instance : Inhabited Number := ⟨.integer 0⟩

/-! ## Conversions and tests -/

/-- The integer `n`, if it fits into 64 bits. -/
def ofInt? (n : Int) : Option Number :=
  if Int64.minValue.toInt ≤ n ∧ n ≤ Int64.maxValue.toInt then some (.integer (Int64.ofInt n))
  else none

/-- The number as a real. An integer too long for a significand is rounded to the
nearest real, and to the even one of two equally near. -/
def toReal : Number → Float
  | .integer value => Float.ofInt value.toInt
  | .real value => value

/-- Zero of either kind, and for reals of either sign. -/
def isZero : Number → Bool
  | .integer value => value == 0
  | .real value => value == 0.0

/-! ## Texts -/

/-- The text of a real value. -/
def realText : Binary64 → String
  | .finite negative size =>
    if size.isWhole then Binary64.signText negative ++ toString size.whole ++ ".0"
    else (Binary64.finite negative size).text
  | other => other.text

/-- The text of a value. -/
def text : Number → String
  | .integer value => toString value.toInt
  | .real value => realText (Binary64.ofFloat value)

end Number

end MiniPascal

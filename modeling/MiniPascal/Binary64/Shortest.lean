/-
`Shortest.lean` -- the shortest decimal that reads back as a given real.

A decimal reads back as `x` when it lies among the numbers that round to `x`: from
half way to the neighbour below to half way to the neighbour above, the two ends
included exactly when the significand of `x` is even. Just above a power of two the
neighbour below is only half as far away. Everything is measured in quarters of the
last binary place, where the ends of that interval are whole numbers, and compared
by cross-multiplication, so only naturals occur.

The decimals with a fixed last place form a grid, and only the two points of a grid
next to `x` have to be looked at. `search` goes through the grids from coarse to
fine, so the first point that reads back has the fewest digits possible. It ends
at the exact value at the latest, and therefore always has an answer.
-/
import MiniPascal.Binary64

set_option autoImplicit false

namespace MiniPascal

namespace Magnitude

/-! ## The interval -/

/-- Where the numbers that round to `x` begin, in quarters of its last place. -/
def lowerEnd (x : Magnitude) : Nat :=
  if x.significand = Nat.pow 2 52 ∧ -1074 < x.exponent then 4 * x.significand - 1
  else 4 * x.significand - 2

/-- Where the numbers that round to `x` end, in quarters of its last place. -/
def upperEnd (x : Magnitude) : Nat := 4 * x.significand + 2

/-- `d` on the common scale of decimals with its exponent and quarters of `x`. -/
def scaleDecimal (x : Magnitude) (d : Decimal) : Nat :=
  d.digits * Nat.pow 10 d.exponent.toNat * Nat.pow 2 (2 - x.exponent).toNat

/-- `n` quarters of the last place of `x`, on the scale of decimals with exponent `e`. -/
def scaleQuarters (x : Magnitude) (e : Int) (n : Nat) : Nat :=
  n * Nat.pow 2 (x.exponent - 2).toNat * Nat.pow 10 (-e).toNat

/-- Does `d` round to `x`? -/
def readsBack (x : Magnitude) (d : Decimal) : Bool :=
  let lower := x.scaleQuarters d.exponent x.lowerEnd
  let upper := x.scaleQuarters d.exponent x.upperEnd
  let here := x.scaleDecimal d
  if x.significand % 2 = 0 then lower ≤ here && here ≤ upper
  else lower < here && here < upper

/-! ## The search -/

/-- The best decimal with exponent `e`, if one reads back: of the two neighbours of
`x` the nearer, and of two equally near ones the upper. -/
def onGrid? (x : Magnitude) (e : Int) : Option Decimal :=
  let here := x.scaleQuarters e (4 * x.significand)
  let gap := x.scaleDecimal ⟨1, e⟩
  let below := here / gap
  let fits := fun n => x.readsBack ⟨n, e⟩
  let nearer := if 2 * here < (2 * below + 1) * gap then below else below + 1
  let farther := if nearer = below then below + 1 else below
  if fits nearer then some ⟨nearer, e⟩
  else if fits farther then some ⟨farther, e⟩
  else none

/-- The first answer among `count` grids, from exponent `e` downward. -/
def search (x : Magnitude) (e : Int) : Nat → Decimal
  | 0 => x.exact
  | count + 1 => (x.onGrid? e).getD (x.search (e - 1) count)

/-- How many digits stand before the point; none for a number below one. -/
def leadingExponent (x : Magnitude) : Nat :=
  if x.whole = 0 then 0 else (Nat.toDigits 10 x.whole).length

/-- The shortest decimal that reads back as `x`. The coarsest grid worth trying has
its first point above `x`; the finest holds `x` itself. -/
def shortest (x : Magnitude) : Decimal :=
  let e := x.leadingExponent
  x.search e (e + (-x.exponent).toNat + 1)

end Magnitude

namespace Binary64

/-- The texts of numbers that are no decimals, and the sign of those that are. -/
def signText (negative : Bool) : String := if negative then "-" else ""

/-- The shortest text that reads back, in positional form. -/
def text : Binary64 → String
  | .nan => "NaN"
  | .infinite negative => signText negative ++ "inf"
  | .finite negative size => signText negative ++ size.shortest.text

end Binary64

end MiniPascal

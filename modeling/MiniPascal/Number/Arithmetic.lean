/-
`Arithmetic.lean` -- the operators and what they compute.

Integers are exact or fail: an operation is done on the unbounded integers, and its
result counts only if it fits into 64 bits. So no operation wraps, and overflow is
one test (`exactly`) instead of one per operator. An operator that has an integer
form uses it when both operands are integers; in every other case both operands are
taken as reals. Division by zero is asked for first, whatever the operands.
-/
import MiniPascal.Fault

set_option autoImplicit false

namespace MiniPascal

/-- `+`, `-`, `*`, `DIV` and `/`. -/
inductive BinaryOperator where
  | add | subtract | multiply | integerDivide | divide
deriving DecidableEq, Repr

/-- A sign in front of an operand. -/
inductive UnaryOperator where
  | plus | minus
deriving DecidableEq, Repr

namespace BinaryOperator

/-- The operation on integers, for the operators that have one. `DIV` drops the
fraction, toward zero. -/
def onIntegers? : BinaryOperator → Option (Int → Int → Int)
  | add => some (· + ·)
  | subtract => some (· - ·)
  | multiply => some (· * ·)
  | integerDivide => some Int.tdiv
  | divide => none

/-- The operation on reals. -/
def onReals : BinaryOperator → Float → Float → Float
  | add => (· + ·)
  | subtract => (· - ·)
  | multiply => (· * ·)
  | integerDivide => fun a b => Binary64.truncate (a / b)
  | divide => (· / ·)

/-- Does the operator need a divisor other than zero? -/
def divides : BinaryOperator → Bool
  | integerDivide | divide => true
  | add | subtract | multiply => false

end BinaryOperator

namespace Number

/-- An exact result as a value. -/
def exactly (n : Int) : Except RuntimeFault Number :=
  match ofInt? n with
  | some value => .ok value
  | none => .error .overflow

/-- `left op right`. -/
def binary (op : BinaryOperator) (left right : Number) : Except RuntimeFault Number :=
  if op.divides && right.isZero then .error .divisionByZero
  else
    match op.onIntegers?, left, right with
    | some f, .integer a, .integer b => exactly (f a.toInt b.toInt)
    | _, _, _ => .ok (.real (op.onReals left.toReal right.toReal))

/-- A signed operand. A plus changes nothing; the one integer without a negative is
the smallest. -/
def unary : UnaryOperator → Number → Except RuntimeFault Number
  | .plus, value => .ok value
  | .minus, .integer value => exactly (-value.toInt)
  | .minus, .real value => .ok (.real (-value))

end Number

end MiniPascal

/-
`Expression.lean` -- the rules for expressions.

  expression := term (("+" | "-") term)*
  term       := factor (("*" | "DIV" | "/") factor)*
  factor     := ("+" | "-") factor | constant | identifier | "(" expression ")"

An expression and a term are the same construction with different operators: a
first operand and a list of operators with their operands (`chain`). The list is
folded from the left, which is what makes the operators associate to the left. A
sign belongs to the factor behind it, so signs associate to the right and bind
tighter than any operator between operands.

`factorAt` is recursive in a number of levels. It is not a second limit: each call
is one level deeper than the one before, and `nested` refuses the level where the
number would run out.
-/
import MiniPascal.Grammar.Cursor

set_option autoImplicit false

namespace MiniPascal

namespace Rule

/-! ## Operators -/

/-- The operators between terms. -/
def additive? : Kind → Option BinaryOperator
  | .terminal .plus => some .add
  | .terminal .minus => some .subtract
  | _ => none

/-- The operators between factors. -/
def multiplicative? : Kind → Option BinaryOperator
  | .terminal .times => some .multiply
  | .terminal .div => some .integerDivide
  | .terminal .slash => some .divide
  | _ => none

/-- The signs. -/
def sign? : Kind → Option UnaryOperator
  | .terminal .plus => some .plus
  | .terminal .minus => some .minus
  | _ => none

/-! ## Chains of operands -/

/-- An operator in a chain, with the place where it stands and the operand behind it. -/
structure Link where
  op : BinaryOperator
  position : Position
  operand : Expr

/-- The tree of a chain, grouped from the left. -/
def chainTree (first : Expr) (links : List Link) : Expr :=
  links.foldl (fun left link => .binary link.op left link.operand link.position) first

/-- Operands with the selected operators between them. -/
def chain (operator? : Kind → Option BinaryOperator) (operand : Rule Expr) : Rule Expr := do
  let first ← operand
  let links ← many operator? fun op => do
    let token ← advance
    return ⟨op, token.position, ← operand⟩
  return chainTree first links

/-- `term`, for a given rule of factors. -/
def termOf (factor : Rule Expr) : Rule Expr := chain multiplicative? factor

/-- `expression`, for a given rule of factors. -/
def expressionOf (factor : Rule Expr) : Rule Expr := chain additive? (termOf factor)

/-! ## Factors -/

/-- `factor`, where so many further levels can be entered. -/
def factorAt : Nat → Rule Expr
  | 0 => refuse (.nestingTooDeep maxNesting)
  | levels + 1 => do
    let position ← here
    match ← peek with
    | .integerConstant value =>
      let _ ← advance
      return .literal (.integer value) position
    | .realConstant value =>
      let _ ← advance
      return .literal (.real value) position
    | .identifier _ => return .variable (← identifier)
    | .terminal .leftParen =>
      let _ ← advance
      let inner ← nested (expressionOf (factorAt levels))
      let _ ← eat .rightParen
      return inner
    | kind =>
      match sign? kind with
      | some op =>
        let _ ← advance
        return .unary op (← nested (factorAt levels)) position
      | none => expected .expression

/-- `expression`. -/
def expression : Rule Expr := expressionOf (factorAt (maxNesting + 1))

end Rule

end MiniPascal

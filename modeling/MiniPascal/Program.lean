/-
`Program.lean` -- programs as trees.

Every node carries the place that messages about it point at: a name its own, an
operation its operator, an assignment its `:=`. Groups of parentheses have left no
trace, since the shape of the tree says the same. A block is declarations and a
body; a procedure is a name and a block, but holds the two parts of the block
itself, so that declarations are an inductive type with lists as its only nesting.
-/
import MiniPascal.Number.Arithmetic

set_option autoImplicit false

namespace MiniPascal

/-- A name where it occurs. -/
structure Identifier where
  name : String
  position : Position
deriving DecidableEq, Repr

/-- An arithmetic expression. -/
inductive Expr where
  | literal (value : Number) (position : Position)
  | variable (name : Identifier)
  | binary (op : BinaryOperator) (left right : Expr) (position : Position)
  | unary (op : UnaryOperator) (operand : Expr) (position : Position)

/-- A statement of a body. -/
inductive Statement where
  /-- Nothing, as before an `END` that follows a semicolon. -/
  | empty
  | assign (target : Identifier) (value : Expr) (position : Position)
  | compound (body : List Statement)

/-- The types that a variable can be declared with. -/
inductive VariableType where
  | integer | real
deriving DecidableEq, Repr

/-- How a type is written. -/
def VariableType.text : VariableType → String
  | .integer => "INTEGER"
  | .real => "REAL"

/-- One declared name: a line that declares several variables is several of these. -/
inductive Declaration where
  | variable (name : Identifier) (type : VariableType)
  | procedure (name : Identifier) (declarations : List Declaration) (body : List Statement)

/-- Does the declaration declare a variable? -/
def Declaration.isVariable : Declaration → Bool
  | .variable _ _ => true
  | .procedure _ _ _ => false

/-- Declarations and the body they are for. -/
structure Block where
  declarations : List Declaration
  body : List Statement

/-- A whole program. -/
structure Program where
  name : Identifier
  block : Block

end MiniPascal

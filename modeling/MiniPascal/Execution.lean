/-
`Execution.lean` -- what programs do.

Running a program means running its own body. Declarations do nothing, and neither
do procedures, which the language can declare but not call. The operands of an
operator are evaluated from left to right before the operator is applied, so the
first failure in that order is the one reported; an assignment happens only when
its value is there.

A `Machine` outlives the programs it runs: a program finds the store as the one
before it left it, also if that one failed.
-/
import MiniPascal.Store
import MiniPascal.Program

set_option autoImplicit false

namespace MiniPascal

/-- The store, and the assignments that led to it. -/
structure Machine where
  store : Store
  assignments : Array (String × Number)

/-- A part of an execution. -/
abbrev Execute (α : Type) := EStateM (Error RuntimeFault) Machine α

namespace Machine

/-- A machine that has run nothing. -/
def fresh : Machine := ⟨∅, #[]⟩

instance : Inhabited Machine := ⟨fresh⟩

end Machine

/-! ## Expressions -/

/-- The outcome of an operator that stands at `position`. -/
def Number.located (position : Position) :
    Except RuntimeFault Number → Except (Error RuntimeFault) Number
  | .ok value => .ok value
  | .error fault => .error ⟨fault, position⟩

/-- The value of an expression in a store. -/
def Expr.value (store : Store) : Expr → Except (Error RuntimeFault) Number
  | .literal value _ => .ok value
  | .variable name =>
    match store.get? name.name with
    | some value => .ok value
    | none => .error ⟨.unassignedVariable name.name, name.position⟩
  | .binary op left right position => do
    let left ← left.value store
    let right ← right.value store
    Number.located position (Number.binary op left right)
  | .unary op operand position => do
    let operand ← operand.value store
    Number.located position (Number.unary op operand)

namespace Execute

/-! ## Statements -/

/-- Assigns the value of an expression. -/
def assign (target : Identifier) (value : Expr) : Execute Unit := fun m =>
  match value.value m.store with
  | .ok number =>
    .ok () ⟨m.store.assign target.name number, m.assignments.push (target.name, number)⟩
  | .error e => .error e m

mutual

/-- Runs a statement. -/
def statement : Statement → Execute Unit
  | .empty => return
  | .assign target value _ => assign target value
  | .compound body => statements body

/-- Runs statements in order. -/
def statements : List Statement → Execute Unit
  | [] => return
  | first :: others => do
    statement first
    statements others

end

/-- Runs the body of a program. -/
def program (p : Program) : Execute Unit := statements p.block.body

end Execute

end MiniPascal

/-
`Program.lean` -- the rules for programs, from the dot upward.

  program      := "PROGRAM" identifier ";" block "."
  block        := declarations compound
  declarations := ("VAR" (variable ";")+)* procedure*
  variable     := identifier ("," identifier)* ":" ("INTEGER" | "REAL")
  procedure    := "PROCEDURE" identifier ";" block ";"
  compound     := "BEGIN" statement (";" statement)* "END"
  statement    := compound | identifier ":=" expression | (nothing)

The rules are written from the inside out. Compound statements and procedures are
recursive in a number of levels, as factors are, and for the same reason it is no
limit of its own. A statement may be nothing, so a statement list never fails at
its end; the one token that cannot follow it in any program and would be misleading
to report as a missing `END` is an identifier, and it is asked for.
-/
import MiniPascal.Grammar.Expression

set_option autoImplicit false

namespace MiniPascal

namespace Rule

/-! ## Statements -/

/-- `identifier ":=" expression`. -/
def assignment : Rule Statement := do
  let target ← identifier
  let mark ← eat .assign
  return .assign target (← expression) mark.position

/-- Statements with semicolons between them. -/
def statementList (statement : Rule Statement) : Rule (List Statement) := do
  let first ← statement
  let others ← many (on .semicolon) fun _ => do
    let _ ← advance
    statement
  if (onIdentifier (← peek)).isSome then expected .separatorOrEnd
  return first :: others

/-- `compound`, for a given rule of statements. The level counts from `BEGIN` on. -/
def compoundOf (statement : Rule Statement) : Rule (List Statement) := nested do
  let _ ← eat .beginBlock
  let body ← statementList statement
  let _ ← eat .endBlock
  return body

/-- `statement`, where so many further levels can be entered. -/
def statementAt : Nat → Rule Statement
  | 0 => refuse (.nestingTooDeep maxNesting)
  | levels + 1 => do
    match ← peek with
    | .terminal .beginBlock => return .compound (← compoundOf (statementAt levels))
    | .identifier _ => assignment
    | _ => return .empty

/-- `compound`. -/
def compound : Rule (List Statement) := compoundOf (statementAt (maxNesting + 1))

/-! ## Declarations -/

/-- The name of a type. -/
def typeName : Rule VariableType := do
  match ← peek with
  | .terminal .integer => let _ ← advance; return .integer
  | .terminal .real => let _ ← advance; return .real
  | _ => expected .typeName

/-- `variable`: one declaration for each name. -/
def variableLine : Rule (List Declaration) := do
  let first ← identifier
  let others ← many (on .comma) fun _ => do
    let _ ← advance
    identifier
  let _ ← eat .colon
  let type ← typeName
  return (first :: others).map fun name => .variable name type

/-- `"VAR" (variable ";")+`. -/
def variableSection : Rule (List Declaration) := do
  let _ ← advance
  let line : Rule (List Declaration) := do
    let declared ← variableLine
    let _ ← eat .semicolon
    return declared
  let first ← line
  let others ← many onIdentifier fun _ => line
  return (first :: others).flatten

/-- `declarations`, for a given rule of procedures. -/
def declarationsOf (procedure : Rule Declaration) : Rule (List Declaration) := do
  let sections ← many (on .var) fun _ => variableSection
  let procedures ← many (on .procedure) fun _ => procedure
  return sections.flatten ++ procedures

/-- `block`, for a given rule of procedures. -/
def blockOf (procedure : Rule Declaration) : Rule Block := do
  return ⟨← declarationsOf procedure, ← compound⟩

/-- The parts of a block, one after another. -/
theorem blockOf_eq (procedure : Rule Declaration) : blockOf procedure = (do
    let sections ← many (on .var) fun _ => variableSection
    let procedures ← many (on .procedure) fun _ => procedure
    return ⟨sections.flatten ++ procedures, ← compound⟩) :=
  (bind_assoc _ _ _).trans <| bind_congr fun _ =>
    (bind_assoc _ _ _).trans <| bind_congr fun _ => pure_bind _ _

/-- `procedure`, where so many further levels can be entered. -/
def procedureAt : Nat → Rule Declaration
  | 0 => refuse (.nestingTooDeep maxNesting)
  | levels + 1 => do
    let _ ← eat .procedure
    let name ← identifier
    let _ ← eat .semicolon
    let block ← nested (blockOf (procedureAt levels))
    let _ ← eat .semicolon
    return .procedure name block.declarations block.body

/-- `block`. -/
def block : Rule Block := blockOf (procedureAt (maxNesting + 1))

/-! ## Programs -/

/-- `program`. -/
def program : Rule Program := do
  let _ ← eat .program
  let name ← identifier
  let _ ← eat .semicolon
  let block ← block
  let _ ← eat .dot
  return ⟨name, block⟩

/-- A program and nothing behind it. -/
def wholeProgram : Rule Program := do
  let parsed ← program
  let kind ← peek
  if kind.isEnd then return parsed else refuse (.trailingTokens kind)

end Rule

end MiniPascal

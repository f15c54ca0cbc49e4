/-
`Resolution.lean` -- the static pass.

The pass opens a scope for the program and for each procedure, declares names in
it, and resolves every variable of a body from the scope of its block outward. It
stops at the first fault. The order in which it looks decides which fault that is:
declarations in order, the name of a procedure before its block, a body after all
declarations of its block, and in an assignment the value before the target.

A `Resolver` is kept from pass to pass, and a pass begins by forgetting everything
in it. What a failed pass leaves behind are the scopes that were open where it
stopped, and the record of what it had done.
-/
import MiniPascal.Scope.Arena

set_option autoImplicit false

namespace MiniPascal

/-- One step of the static pass, as it is recorded. -/
inductive ScopeEvent where
  | entered (scope : String) (level : Nat)
  | declared (scope : String) (symbol : Symbol)
  | resolved (name : String) (symbol : Symbol)
  | left (table : Table)

/-- The open scopes, and the record of the pass. -/
structure Resolver where
  scopes : Arena
  record : Array ScopeEvent

/-- A part of the static pass. -/
abbrev Resolve (α : Type) := EStateM (Error ScopeFault) Resolver α

namespace Resolver

/-- A resolver that has seen nothing. -/
def fresh : Resolver := ⟨∅, #[]⟩

instance : Inhabited Resolver := ⟨fresh⟩

/-- The resolver with one more event on record. -/
def log (r : Resolver) (event : ScopeEvent) : Resolver :=
  { r with record := r.record.push event }

end Resolver

namespace Resolve

/-! ## Scopes -/

/-- Opens a scope. -/
def enter (name : String) (enclosing : Option ScopeId) : Resolve ScopeId := fun r =>
  let (id, scopes) := r.scopes.push name enclosing
  .ok id ({ r with scopes }.log (.entered name (scopes.table id).level))

/-- Closes the innermost scope. -/
def leave : Resolve Unit := fun r =>
  match r.scopes.pop with
  | (some table, scopes) => .ok () ({ r with scopes }.log (.left table))
  | (none, scopes) => .ok () { r with scopes }

/-! ## Names -/

/-- Declares a symbol, whose name stands at `position`, in a scope. -/
def declare (scope : ScopeId) (symbol : Symbol) (position : Position) : Resolve Unit := fun r =>
  let table := r.scopes.table scope
  match r.scopes.insert? scope symbol with
  | some scopes => .ok () ({ r with scopes }.log (.declared table.name symbol))
  | none => .error ⟨.duplicateDeclaration symbol.name table.name, position⟩ r

/-- Resolves a variable. -/
def identifier (scope : ScopeId) (occurrence : Identifier) : Resolve Unit := fun r =>
  match r.scopes.lookup scope occurrence.name with
  | some symbol => .ok () (r.log (.resolved occurrence.name symbol))
  | none => .error ⟨.undeclaredIdentifier occurrence.name, occurrence.position⟩ r

/-! ## Bodies -/

/-- Resolves the variables of an expression, from left to right. -/
def expr (scope : ScopeId) : Expr → Resolve Unit
  | .literal _ _ => return
  | .variable name => identifier scope name
  | .binary _ left right _ => do
    expr scope left
    expr scope right
  | .unary _ operand _ => expr scope operand

mutual

/-- Resolves the variables of a statement. -/
def statement (scope : ScopeId) : Statement → Resolve Unit
  | .empty => return
  | .assign target value _ => do
    expr scope value
    identifier scope target
  | .compound body => statements scope body

/-- Resolves the variables of statements in order. -/
def statements (scope : ScopeId) : List Statement → Resolve Unit
  | [] => return
  | first :: others => do
    statement scope first
    statements scope others

end

/-! ## Declarations -/

mutual

/-- Declares one name; a procedure's block is then resolved in a scope of its own. -/
def declaration (scope : ScopeId) : Declaration → Resolve Unit
  | .variable name type => declare scope (.variable name.name type) name.position
  | .procedure name inner body => do
    declare scope (.procedure name.name) name.position
    let own ← enter name.name (some scope)
    declarations own inner
    statements own body
    leave

/-- Declares names in order. -/
def declarations (scope : ScopeId) : List Declaration → Resolve Unit
  | [] => return
  | first :: others => do
    declaration scope first
    declarations scope others

end

/-! ## Programs -/

/-- The whole pass over a program, from a resolver with any past. -/
def program (p : Program) : Resolve Unit := do
  set Resolver.fresh
  let own ← enter p.name.name none
  declarations own p.block.declarations
  statements own p.block.body
  leave

end Resolve

end MiniPascal

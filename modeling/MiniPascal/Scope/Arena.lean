/-
`Arena.lean` -- the open scopes.

Scopes are closed in the reverse of the order in which they were opened, so the
open ones form a stack, and a scope is called by its index in it. The index of a
closed scope is given out again; whoever kept it then means the new scope.

A scope refers to the one it is nested in, which was open when it was opened and so
has a smaller index. That is what ends `lookup`: it goes outward only to smaller
indices. Asking for a scope that is not open finds an empty table.
-/
import MiniPascal.Scope.Table

set_option autoImplicit false

namespace MiniPascal

/-- The tables of the open scopes, outermost first. -/
structure Arena where
  tables : Array Table
deriving Inhabited

namespace Arena

/-- No open scope. -/
def empty : Arena := ⟨#[]⟩

instance : EmptyCollection Arena := ⟨empty⟩

/-- How many scopes are open. -/
def size (a : Arena) : Nat := a.tables.size

/-- Is there an open scope with this index? -/
def isOpen (a : Arena) (id : ScopeId) : Bool := id.index < a.size

/-- The table of a scope. -/
def table (a : Arena) (id : ScopeId) : Table :=
  a.tables[id.index]?.getD (.opened "" 0 none)

/-! ## Opening and closing -/

/-- Opens a scope, one level deeper than the scope that encloses it. -/
def push (a : Arena) (name : String) (enclosing : Option ScopeId) : ScopeId × Arena :=
  let level := (enclosing.map fun id => (a.table id).level + 1).getD 1
  (⟨a.size⟩, ⟨a.tables.push (.opened name level enclosing)⟩)

/-- Closes the scope that was opened last, and gives its table. -/
def pop (a : Arena) : Option Table × Arena :=
  (a.tables.back?, ⟨a.tables.pop⟩)

/-! ## Declaring and looking up -/

/-- The arena with one more symbol in scope `id`, unless the name is taken there. -/
def insert? (a : Arena) (id : ScopeId) (symbol : Symbol) : Option Arena :=
  ((a.table id).insert? symbol).map fun table => ⟨a.tables.setIfInBounds id.index table⟩

/-- The variable that `name` means in scope `id`: its own, or else the one that it
means in the enclosing scope. -/
def lookup (a : Arena) (id : ScopeId) (name : String) : Option Symbol :=
  match (a.table id).findVariable name with
  | some symbol => some symbol
  | none =>
    match (a.table id).enclosing with
    | some outer => if outer.index < id.index then a.lookup outer name else none
    | none => none
termination_by id.index

end Arena

end MiniPascal

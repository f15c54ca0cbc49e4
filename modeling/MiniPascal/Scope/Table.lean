/-
`Table.lean` -- the names that one block declares.

Variables and procedures are two namespaces of a table, so a procedure may share
its name with a variable. Each namespace is a map by name, and so the printed form
of a table depends only on what was declared, not on the order: it lists the
symbols by increasing name, and at equal names the procedure first.
-/
import MiniPascal.NameMap
import MiniPascal.Program

set_option autoImplicit false

namespace MiniPascal

/-- A declared name. -/
inductive Symbol where
  | variable (name : String) (type : VariableType)
  | procedure (name : String)
deriving DecidableEq, Repr

namespace Symbol

/-- The name that is declared. -/
def name : Symbol → String
  | .variable name _ => name
  | .procedure name => name

/-- How listings show a symbol. -/
def text : Symbol → String
  | .variable name type => "<VarSymbol(name='" ++ name ++ "', type='" ++ type.text ++ "')>"
  | .procedure name => "<ProcedureSymbol(name='" ++ name ++ "')>"

end Symbol

/-- A scope, by its index among the open ones. -/
structure ScopeId where
  index : Nat
deriving DecidableEq, Repr

/-- How listings show a scope. -/
def ScopeId.text (id : ScopeId) : String := "#" ++ toString id.index

/-- The names declared directly in one block, and where that block stands. -/
structure Table where
  name : String
  level : Nat
  enclosing : Option ScopeId
  vars : NameMap VariableType
  procs : NameMap Unit
deriving Inhabited

namespace Table

/-- A table without symbols. -/
def opened (name : String) (level : Nat) (enclosing : Option ScopeId) : Table :=
  ⟨name, level, enclosing, ∅, ∅⟩

/-! ## Symbols -/

/-- The variable declared here as `name`. -/
def findVariable (t : Table) (name : String) : Option Symbol :=
  (t.vars.get? name).map (.variable name)

/-- The procedure declared here as `name`. -/
def findProcedure (t : Table) (name : String) : Option Symbol :=
  (t.procs.get? name).map fun _ => .procedure name

/-- The table with one more symbol, unless its namespace has the name already. -/
def insert? (t : Table) : Symbol → Option Table
  | .variable name type =>
    if t.vars.contains name then none
    else some { t with vars := t.vars.insert name type }
  | .procedure name =>
    if t.procs.contains name then none
    else some { t with procs := t.procs.insert name () }

/-- All symbols in the order of listings. -/
def symbols (t : Table) : List Symbol :=
  let procs := t.procs.entries.map fun entry => Symbol.procedure entry.1
  let vars := t.vars.entries.map fun entry => Symbol.variable entry.1 entry.2
  procs.merge vars fun a b => a.name ≤ b.name

/-! ## The listing -/

/-- A line and another one of the same length, drawn below it. -/
def underlined (line : String) (stroke : Char) : String :=
  line ++ "\n" ++ "".pushn stroke line.length ++ "\n"

/-- The line of one symbol. Names are aligned to the right in seven columns. -/
def symbolLine (symbol : Symbol) : String :=
  String.ofList (symbol.name.toList.leftpad 7 ' ') ++ ": " ++ symbol.text ++ "\n"

/-- The listing of a table. -/
def text (t : Table) : String :=
  underlined "SCOPE (SCOPED SYMBOL TABLE)" '='
    ++ "Scope name     : " ++ t.name ++ "\n"
    ++ "Scope level    : " ++ toString t.level ++ "\n"
    ++ "Enclosing scope: " ++ (t.enclosing.map ScopeId.text).getD "None" ++ "\n"
    ++ underlined "Scope (Scoped symbol table) contents" '-'
    ++ String.join (t.symbols.map symbolLine)

end Table

end MiniPascal

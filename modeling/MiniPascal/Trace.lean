/-
`Trace.lean` -- what can be watched while a source is worked on.

Every stage keeps a record of its own: the tokens that were read, the steps of the
static pass, the assignments. Here they become one sequence of events, each with a
level of detail, a message and named fields. A `Traced` result is what came out
together with the events on the way to it; running one after another joins the
events, and a failure keeps those that came before it.
-/
import MiniPascal.Scope.Resolution
import MiniPascal.Execution
import MiniPascal.Grammar.Program

set_option autoImplicit false

namespace MiniPascal

/-! ## Events -/

/-- How much detail an event is. Whoever wants `trace` events gets all of them. -/
inductive Level where
  | debug | trace
deriving DecidableEq, Repr

/-- How a level is written. -/
def Level.text : Level → String
  | .debug => "DEBUG"
  | .trace => "TRACE"

/-- The value of a field. -/
inductive Field where
  | text (value : String)
  | count (value : Nat)
deriving DecidableEq, Repr

/-- Something that happened. -/
structure Event where
  level : Level
  message : String
  fields : List (String × Field)
deriving DecidableEq, Repr

namespace Event

/-- A token has been read. -/
def ofToken (token : Token) : Event :=
  ⟨.trace, "lexed token",
    [("kind", .text token.kind.text), ("position", .text token.position.text)]⟩

/-- A program has been parsed. -/
def ofProgram (p : Program) : Event :=
  ⟨.debug, "parsed program",
    [("program", .text p.name.name), ("declarations", .count p.block.declarations.length)]⟩

/-- A step of the static pass. Leaving a scope also lists its table. -/
def ofScopeEvent : ScopeEvent → List Event
  | .entered scope level =>
    [⟨.debug, "enter scope", [("scope", .text scope), ("level", .count level)]⟩]
  | .declared scope symbol =>
    [⟨.trace, "insert symbol", [("scope", .text scope), ("symbol", .text symbol.text)]⟩]
  | .resolved name symbol =>
    [⟨.trace, "resolved variable", [("name", .text name), ("symbol", .text symbol.text)]⟩]
  | .left table =>
    [⟨.debug, "leave scope", [("scope", .text table.name), ("level", .count table.level)]⟩,
      ⟨.trace, "\n" ++ table.text, []⟩]

/-- A variable has been assigned. -/
def ofAssignment (assignment : String × Number) : Event :=
  ⟨.debug, "assign", [("name", .text assignment.1), ("value", .text assignment.2.text)]⟩

/-- Is the event shown to someone who asks for this level? -/
def shownAt (asked : Level) (event : Event) : Bool :=
  asked == .trace || event.level == .debug

end Event

/-! ## Results with their events -/

/-- A result, and the events on the way to it. -/
structure Traced (α : Type) where
  events : List Event
  result : Except (Error Fault) α

namespace Traced

variable {α β : Type}

instance : Monad Traced where
  pure a := ⟨[], .ok a⟩
  bind x f :=
    match x.result with
    | .ok a => ⟨x.events ++ (f a).events, (f a).result⟩
    | .error e => ⟨x.events, .error e⟩

/-! ## The stages -/

/-- The outcome of the rule for programs, from a given cursor. -/
def ofCursor (c : Cursor) : Traced Program :=
  match Rule.wholeProgram c with
  | .ok program c =>
    ⟨c.seen.toList.map Event.ofToken ++ [Event.ofProgram program], .ok program⟩
  | .error e c => ⟨c.seen.toList.map Event.ofToken, .error (e.map ReadingFault.toFault)⟩

/-- Parses a source. -/
def parse (source : String) : Traced Program :=
  match Cursor.ofStream (.ofSource source) with
  | .ok c => ofCursor c
  | .error e => ⟨[], .error (e.map ReadingFault.toFault)⟩

/-- The static pass over a program. -/
def resolve (program : Program) : Traced Unit :=
  match Resolve.program program .fresh with
  | .ok _ r => ⟨r.record.toList.flatMap Event.ofScopeEvent, .ok ()⟩
  | .error e r => ⟨r.record.toList.flatMap Event.ofScopeEvent, .error (e.map Fault.scope)⟩

/-- The execution of a program. -/
def execute (program : Program) : Traced Store :=
  match Execute.program program .fresh with
  | .ok _ m => ⟨m.assignments.toList.map Event.ofAssignment, .ok m.store⟩
  | .error e m => ⟨m.assignments.toList.map Event.ofAssignment, .error (e.map Fault.runtime)⟩

/-- Parses a source and checks its names. -/
def check (source : String) : Traced Program := do
  let program ← parse source
  resolve program
  return program

/-- Parses, checks and executes. -/
def run (source : String) : Traced Store := do
  let program ← check source
  execute program

end Traced

/-! ## Results alone -/

/-- The program that a source is. -/
def parse (source : String) : Except (Error Fault) Program := (Traced.parse source).result

/-- The program that a source is, if its names are used rightly. -/
def check (source : String) : Except (Error Fault) Program := (Traced.check source).result

/-- The store that a source leads to. Nothing is executed before all is checked. -/
def run (source : String) : Except (Error Fault) Store := (Traced.run source).result

end MiniPascal

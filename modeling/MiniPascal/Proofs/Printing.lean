/-
`Printing.lean` -- what the static pass prints.

The texts are spelled out here, letter by letter, and nothing that puts them together in the
program is used for it: what is shown of a symbol (`Symbol.shown`), its row in a listing
(`Symbol.row`), and a whole listing with its rules and headings (`dump`). A table is printed
in this form (`Table.text_eq_dump`).

A moment of the static pass prints one event, and the moment where a block is left prints
the listing of its table besides (`Moment.Prints`). Which these are is told from the
declarations that the blocks around it have met. The events that a check logs become just
those when it succeeds (`Moment.prints_of_ok`).
-/
import MiniPascal.Proofs.Stateful
import MiniPascal.Proofs.Visit
import MiniPascal.Trace

set_option autoImplicit false

namespace MiniPascal

/-! ## Listings, line by line -/

namespace Symbol

/-- What is shown of a symbol. -/
def shown : Symbol → String
  | .variable name .integer => "<VarSymbol(name='" ++ name ++ "', type='" ++ "INTEGER" ++ "')>"
  | .variable name .real => "<VarSymbol(name='" ++ name ++ "', type='" ++ "REAL" ++ "')>"
  | .procedure name => "<ProcedureSymbol(name='" ++ name ++ "')>"

/-- The row of a symbol. A name of less than seven letters has blanks in front of it. -/
def row (symbol : Symbol) : String :=
  String.ofList (List.replicate (7 - symbol.name.toList.length) ' ') ++ symbol.name
    ++ ": " ++ symbol.shown ++ "\n"

theorem text_eq_shown (symbol : Symbol) : symbol.text = symbol.shown := by
  cases symbol with
  | «variable» name type => cases type <;> rfl
  | procedure name => rfl

end Symbol

/-- What a table tells of its block. -/
structure Heading where
  name : String
  level : Nat
  enclosing : Option ScopeId

/-- The listing of a table with this heading, given its symbols in their order. -/
def dump (h : Heading) (sorted : List Symbol) : String :=
  "SCOPE (SCOPED SYMBOL TABLE)\n===========================\n"
    ++ "Scope name     : " ++ h.name ++ "\n"
    ++ "Scope level    : " ++ toString h.level ++ "\n"
    ++ "Enclosing scope: " ++ (match h.enclosing with
        | some scope => "#" ++ toString scope.index
        | none => "None") ++ "\n"
    ++ "Scope (Scoped symbol table) contents\n------------------------------------\n"
    ++ String.join (sorted.map Symbol.row)

namespace Table

/-- What `t` tells of its block. -/
def heading (t : Table) : Heading := ⟨t.name, t.level, t.enclosing⟩

theorem symbolLine_eq_row (symbol : Symbol) : symbolLine symbol = symbol.row := by
  rw [symbolLine, List.leftpad, String.ofList_append, String.ofList_toList, symbol.text_eq_shown,
    Symbol.row]

/-- A table is printed in this form. -/
theorem text_eq_dump (t : Table) : t.text = dump t.heading t.symbols := by
  have htitle : underlined "SCOPE (SCOPED SYMBOL TABLE)" '=' =
      "SCOPE (SCOPED SYMBOL TABLE)\n===========================\n" := by decide +kernel
  have hcontents : underlined "Scope (Scoped symbol table) contents" '-' =
      "Scope (Scoped symbol table) contents\n------------------------------------\n" := by
    decide +kernel
  have henclosing : (t.enclosing.map ScopeId.text).getD "None" = (match t.enclosing with
      | some scope => "#" ++ toString scope.index
      | none => "None") := by
    cases t.enclosing <;> rfl
  have hrows : t.symbols.map symbolLine = t.symbols.map Symbol.row :=
    List.map_congr_left fun symbol _ => symbolLine_eq_row symbol
  rw [text, htitle, hcontents, henclosing, hrows]
  rfl

example : dump ⟨"Main", 1, none⟩ [.procedure "x", .variable "x" .real] =
    "SCOPE (SCOPED SYMBOL TABLE)\n===========================\n" ++
    "Scope name     : Main\nScope level    : 1\nEnclosing scope: None\n" ++
    "Scope (Scoped symbol table) contents\n------------------------------------\n" ++
    "      x: <ProcedureSymbol(name='x')>\n" ++
    "      x: <VarSymbol(name='x', type='REAL')>\n" := by decide +kernel

end Table

/-! ## Events of a pass -/

/-- A pass prints what it has on record, whether it fails or not. -/
theorem Traced.events_resolve (p : Program) : (resolve p).events =
    (stateAfter (Resolve.program p .fresh)).record.toList.flatMap Event.ofScopeEvent := by
  unfold resolve
  cases Resolve.program p .fresh <;> rfl

/-! ## Events of moments -/

/-- The events that a moment prints whose check succeeds. Entering and leaving a block tell its
name and its level; a declaration tells the symbol, and a name in a body the variable that it
means there. A block that is left is listed: every declaration that it has met, once, by
increasing name and a procedure before a variable of its name. -/
inductive Moment.Prints : Moment → List Event → Prop
  | enter (b : OpenBlock) (outer : List OpenBlock) :
    Prints ⟨b, outer, .enter⟩
      [⟨.debug, "enter scope", [("scope", .text b.name), ("level", .count (outer.length + 1))]⟩]
  | declare (b : OpenBlock) (outer : List OpenBlock) (d : Declaration) :
    Prints ⟨b, outer, .declare d⟩
      [⟨.trace, "insert symbol", [("scope", .text b.name), ("symbol", .text d.symbol.shown)]⟩]
  | resolve {b : OpenBlock} {outer : List OpenBlock} {x : Identifier} {symbol : Symbol}
      (hmeans : variableIn (b :: outer) x.name = some symbol) :
    Prints ⟨b, outer, .resolve x⟩
      [⟨.trace, "resolved variable", [("name", .text x.name), ("symbol", .text symbol.shown)]⟩]
  | leave {b : OpenBlock} {outer : List OpenBlock} {sorted : List Symbol}
      (hperm : sorted.Perm (b.declared.map Declaration.symbol))
      (horder : sorted.Pairwise Symbol.Before) :
    Prints ⟨b, outer, .leave⟩
      [⟨.debug, "leave scope", [("scope", .text b.name), ("level", .count (outer.length + 1))]⟩,
        ⟨.trace, "\n" ++ dump ⟨b.name, outer.length + 1, innermost? outer⟩ sorted, []⟩]

/-- The step lemma: what is logged becomes what the moment prints. -/
theorem Moment.prints_of_ok {m : Moment} {event : ScopeEvent} (h : m.outcome = .ok event)
    (hm : AllDistinct m.start) : m.Prints (Event.ofScopeEvent event) := by
  obtain ⟨b, outer, step⟩ := m
  cases step with
  | enter =>
    cases h
    exact .enter b outer
  | declare d =>
    rw [outcome] at h
    split at h
    · cases h
    · cases h
      rw [Event.ofScopeEvent, Symbol.text_eq_shown]
      exact .declare b outer d
  | resolve x =>
    rw [outcome] at h
    split at h
    · next symbol hmeans =>
      cases h
      rw [Event.ofScopeEvent, Symbol.text_eq_shown]
      exact .resolve hmeans
    · cases h
  | leave =>
    cases h
    obtain ⟨hname, hlevel, henclosing⟩ := b.table_frame outer
    have hdistinct : Distinct b.declared := (allDistinct_cons_iff.mp hm).1
    rw [Event.ofScopeEvent, Table.text_eq_dump, Table.heading, hname, hlevel, henclosing]
    exact .leave (Table.symbols_opened_perm _ _ _ hdistinct) (Table.pairwise_symbols _)

/-- The run lemma: moments whose checks succeed print their events one after another. -/
theorem Leads.prints {s t : List OpenBlock} {ms : List Moment} {events : List ScopeEvent}
    (h : Leads s ms t) (hevents : ms.map Moment.outcome = events.map .ok) (hs : AllDistinct s) :
    List.Forall₂ Moment.Prints ms (events.map Event.ofScopeEvent) := by
  induction h generalizing events with
  | nil s =>
    obtain rfl : events = [] := by simpa using hevents
    exact .nil
  | cons m _ ih =>
    cases events with
    | nil => cases hevents
    | cons event events =>
      obtain ⟨hevent, hrest⟩ := List.cons.inj hevents
      exact .cons (Moment.prints_of_ok hevent hs)
        (ih hrest (Moment.allDistinct_next hevent hs))

end MiniPascal

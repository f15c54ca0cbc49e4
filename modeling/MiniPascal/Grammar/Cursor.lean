/-
`Cursor.lean` -- walking over the tokens of a source.

A cursor stands on one token and has not read past it. It also knows how deeply
nested the point is at which it stands, and which tokens it has read. A rule of the
grammar is a `Rule`: it moves the cursor, and gives a value or an error. When it
fails the cursor stays where the rule left it, so parsing can be taken up again
after an error.

Two ways of combining rules are enough. `nested` runs a rule one level deeper and
comes back to the level it started from whether or not the rule succeeds; beyond
`maxNesting` it refuses. `many` runs a rule as long as the current token asks for
it. A round of `many` that has read nothing would be the same round again, so the
loop goes on only while fewer tokens are left than before, and that is also why it
ends.
-/
import MiniPascal.Token.Stream
import MiniPascal.Program

set_option autoImplicit false

namespace MiniPascal

/-- How many levels of compound statements, procedures, parentheses and signs may
enclose one point. -/
def maxNesting : Nat := 128

/-- A place in a stream of tokens. -/
structure Cursor where
  /-- The token it stands on. -/
  current : Token
  /-- What has not been read yet. -/
  stream : TokenStream
  /-- How many levels enclose the current point. -/
  depth : Nat
  /-- The tokens read so far, in order and without the end of the input. -/
  seen : Array Token

/-- A rule of the grammar: reads tokens and gives a value, or stops with an error. -/
abbrev Rule (α : Type) := EStateM (Error ReadingFault) Cursor α

namespace Cursor

/-- One more token has been read. -/
def note (seen : Array Token) (token : Token) : Array Token :=
  if token.kind.isEnd then seen else seen.push token

/-- A cursor on the first token of a stream, outside of everything. There is none
if the text does not begin with a token. -/
def ofStream (stream : TokenStream) : Except (Error ReadingFault) Cursor :=
  match stream.read with
  | (.ok token, stream) => .ok ⟨token, stream, 0, note #[] token⟩
  | (.error e, _) => .error (e.map .lexical)

/-- How many tokens there are from the current one on, not counting the end. -/
def remaining (c : Cursor) : Nat :=
  if c.current.kind.isEnd then 0 else c.stream.upcoming.length + 1

/-- A fault of the grammar at the current token. -/
def fault (c : Cursor) (f : SyntaxFault) : Error ReadingFault :=
  ⟨.grammatical f, c.current.position⟩

/-- The error for a current token that is not what the grammar asks for. -/
def unexpected (c : Cursor) (expected : Expectation) : Error ReadingFault :=
  if c.current.kind.isEnd then c.fault (.unexpectedEndOfInput expected)
  else c.fault (.unexpectedToken expected c.current.kind)

end Cursor

namespace Rule

variable {α β : Type}

/-! ## Single tokens -/

/-- The kind of the current token. -/
def peek : Rule Kind := fun c => .ok c.current.kind c

/-- The place of the current token. -/
def here : Rule Position := fun c => .ok c.current.position c

/-- Stops with a fault at the current token. -/
def refuse (f : SyntaxFault) : Rule α := fun c => .error (c.fault f) c

/-- Stops because something else was expected. -/
def expected (what : Expectation) : Rule α := fun c => .error (c.unexpected what) c

/-- Passes the current token, whatever it is, by reading the next one. If what
comes next is no token, the cursor stays, but the bad piece of text has been read. -/
def advance : Rule Token := fun c =>
  match c.stream.read with
  | (.ok token, stream) =>
    .ok c.current { c with current := token, stream, seen := Cursor.note c.seen token }
  | (.error e, stream) => .error (e.map .lexical) { c with stream }

/-- Passes a given terminal. -/
def eat (which : Terminal) : Rule Token := do
  if (← peek).alike (.terminal which) then advance else expected (.terminal which)

/-- Passes a name. -/
def identifier : Rule Identifier := do
  let position ← here
  match ← peek with
  | .identifier name =>
    let _ ← advance
    return ⟨name, position⟩
  | _ => expected .identifier

/-! ## Combinations -/

/-- Runs a rule one level deeper. -/
def nested (rule : Rule α) : Rule α := fun c =>
  if c.depth < maxNesting then
    match rule { c with depth := c.depth + 1 } with
    | .ok a c => .ok a { c with depth := c.depth - 1 }
    | .error e c => .error e { c with depth := c.depth - 1 }
  else refuse (.nestingTooDeep maxNesting) c

/-- Runs `item` as long as `select` finds what it needs in the current token, and
collects the values. -/
def many (select : Kind → Option β) (item : β → Rule α) (c : Cursor) :
    EStateM.Result (Error ReadingFault) Cursor (List α) :=
  match select c.current.kind with
  | none => .ok [] c
  | some b =>
    match item b c with
    | .error e c' => .error e c'
    | .ok a c' =>
      if c'.remaining < c.remaining then
        match many select item c' with
        | .error e c'' => .error e c''
        | .ok as c'' => .ok (a :: as) c''
      else .ok [a] c'
termination_by c.remaining

/-- Selects one terminal. -/
def on (which : Terminal) (kind : Kind) : Option Unit :=
  if kind.alike (.terminal which) then some () else none

/-- Selects any identifier. -/
def onIdentifier : Kind → Option Unit
  | .identifier _ => some ()
  | _ => none

end Rule

end MiniPascal

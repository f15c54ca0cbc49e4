/-
`Position.lean` -- places in a source text.

A place is a line and a column, both counted from 1. Columns count the bytes that
the line holds before the place, not its characters: a letter outside ASCII moves
the column by the length of its UTF-8 form. Two walks over a text are needed.
`advance` is the ordinary one, where a line feed starts a new line; `shift` counts
the whole text into the columns of the line it began on, which is how text that
never became a lexeme is counted. The two agree on text without line feeds
(`shift_eq_advance`), so a caller has to choose only where a line feed can occur.
-/

set_option autoImplicit false

namespace MiniPascal

/-- A line and a column, both counted from 1. -/
structure Position where
  line : Nat
  column : Nat
deriving DecidableEq, Repr

namespace Position

/-- Where every text begins. -/
def start : Position := ⟨1, 1⟩

instance : Inhabited Position := ⟨start⟩

/-- The wording used in messages. -/
def text (p : Position) : String :=
  "line " ++ toString p.line ++ ", column " ++ toString p.column

/-- Reading order: by line, and by column within a line. -/
def before (p q : Position) : Bool :=
  p.line < q.line || (p.line == q.line && p.column ≤ q.column)

/-! ## Walking over text -/

/-- One character on. A line feed starts the next line; any other character moves
the column by the bytes it takes. -/
def step (p : Position) (c : Char) : Position :=
  if c = '\n' then ⟨p.line + 1, 1⟩ else ⟨p.line, p.column + c.utf8Size⟩

/-- The place after `cs`, which begins at `p`. -/
def advance (p : Position) (cs : List Char) : Position :=
  cs.foldl step p

/-- How many bytes a text takes. -/
def bytes : List Char → Nat
  | [] => 0
  | c :: cs => c.utf8Size + bytes cs

/-- The place after `cs` if all of it is counted as one line. -/
def shift (p : Position) (cs : List Char) : Position :=
  ⟨p.line, p.column + bytes cs⟩

@[simp] theorem advance_nil (p : Position) : p.advance [] = p := rfl

@[simp] theorem advance_cons (p : Position) (c : Char) (cs : List Char) :
    p.advance (c :: cs) = (p.step c).advance cs := rfl

theorem advance_append (p : Position) (cs ds : List Char) :
    p.advance (cs ++ ds) = (p.advance cs).advance ds := by
  simp only [advance, List.foldl_append]

/-- Without a line feed there is only one way to count. -/
theorem shift_eq_advance (p : Position) (cs : List Char) (h : '\n' ∉ cs) :
    p.shift cs = p.advance cs := by
  induction cs generalizing p with
  | nil => simp [shift, bytes]
  | cons c cs ih =>
    have hc : c ≠ '\n' := fun e => h (e ▸ List.mem_cons_self)
    have hcs : '\n' ∉ cs := fun m => h (List.mem_cons_of_mem _ m)
    rw [advance_cons, ← ih _ hcs]
    simp [shift, bytes, step, hc, Nat.add_assoc]

end Position

end MiniPascal

/-
`Unplaced.lean` -- what is left when places are forgotten.

Trees, tokens and errors carry places, so two sources that differ only in their layout
have different trees. To say that they mean the same, the places are replaced by one and
the same place everywhere; two things are equal up to places if they are equal then. A
token loses its text as well, of which the kind keeps what matters, and a cursor loses
the places of all tokens that it has read or will read.

Bodies and declarations are lists inside of trees. Forgetting is defined along the
trees, and on lists it is a map (`unplacedBody_eq`, `unplacedDeclarations_eq`).
-/
import MiniPascal.Grammar.Program

set_option autoImplicit false

namespace MiniPascal

/-! ## Trees -/

/-- The name alone. -/
def Identifier.unplaced (x : Identifier) : Identifier := ⟨x.name, .start⟩

/-- The expression without places. -/
def Expr.unplaced : Expr → Expr
  | .literal value _ => .literal value .start
  | .variable name => .variable name.unplaced
  | .binary op left right _ => .binary op left.unplaced right.unplaced .start
  | .unary op operand _ => .unary op operand.unplaced .start

mutual

/-- The statement without places. -/
def Statement.unplaced : Statement → Statement
  | .empty => .empty
  | .assign target value _ => .assign target.unplaced value.unplaced .start
  | .compound body => .compound (unplacedBody body)

/-- The body without places. -/
def unplacedBody : List Statement → List Statement
  | [] => []
  | first :: others => first.unplaced :: unplacedBody others

end

mutual

/-- The declaration without places. -/
def Declaration.unplaced : Declaration → Declaration
  | .variable name type => .variable name.unplaced type
  | .procedure name declarations body =>
    .procedure name.unplaced (unplacedDeclarations declarations) (unplacedBody body)

/-- The declarations without places. -/
def unplacedDeclarations : List Declaration → List Declaration
  | [] => []
  | first :: others => first.unplaced :: unplacedDeclarations others

end

/-- The block without places. -/
def Block.unplaced (b : Block) : Block :=
  ⟨unplacedDeclarations b.declarations, unplacedBody b.body⟩

/-- The program without places. -/
def Program.unplaced (p : Program) : Program := ⟨p.name.unplaced, p.block.unplaced⟩

theorem unplacedBody_eq (body : List Statement) :
    unplacedBody body = body.map Statement.unplaced := by
  induction body with
  | nil => rfl
  | cons s ss ih => rw [unplacedBody, ih, List.map_cons]

theorem unplacedDeclarations_eq (ds : List Declaration) :
    unplacedDeclarations ds = ds.map Declaration.unplaced := by
  induction ds with
  | nil => rfl
  | cons d ds ih => rw [unplacedDeclarations, ih, List.map_cons]

/-! ## Errors and results -/

/-- The fault alone. -/
def Error.unplaced {φ : Type} (e : Error φ) : Error φ := ⟨e.fault, .start⟩

/-- A result without places, where `f` says what its value is then. -/
def unplacedResult {φ α β : Type} (f : α → β) : Except (Error φ) α → Except (Error φ) β
  | .ok a => .ok (f a)
  | .error e => .error e.unplaced

/-! ## Tokens -/

/-- The kind alone. -/
def Token.unplaced (t : Token) : Token := ⟨t.kind, "", .start⟩

/-- The stream of the kinds. -/
def TokenStream.unplaced (s : TokenStream) : TokenStream :=
  ⟨s.upcoming.map (unplacedResult Token.unplaced), s.last.unplaced, s.finished⟩

namespace Cursor

/-- The same stand among the kinds alone. -/
def unplaced (c : Cursor) : Cursor :=
  ⟨c.current.unplaced, c.stream.unplaced, c.depth, c.seen.map Token.unplaced⟩

@[simp] theorem kind_unplaced (c : Cursor) : c.unplaced.current.kind = c.current.kind := rfl

@[simp] theorem depth_unplaced (c : Cursor) : c.unplaced.depth = c.depth := rfl

@[simp] theorem remaining_unplaced (c : Cursor) : c.unplaced.remaining = c.remaining := by
  rw [remaining, remaining, kind_unplaced]
  split
  · rfl
  · rw [unplaced, TokenStream.unplaced, List.length_map]

theorem note_unplaced (seen : Array Token) (t : Token) :
    note (seen.map Token.unplaced) t.unplaced = (note seen t).map Token.unplaced := by
  unfold note
  have hkind : t.unplaced.kind.isEnd = t.kind.isEnd := rfl
  rw [hkind]
  split
  · rfl
  · rw [Array.map_push]

end Cursor

/-- Reading does not look at places. -/
theorem TokenStream.read_unplaced (s : TokenStream) :
    s.unplaced.read = (unplacedResult Token.unplaced s.read.1, s.read.2.unplaced) := by
  rw [read, read, TokenStream.unplaced]
  cases s.upcoming <;> rfl

/-! ## Chains of operands -/

/-- The operator and its operand without places. -/
def Rule.Link.unplaced (l : Link) : Link := ⟨l.op, .start, l.operand.unplaced⟩

theorem Rule.chainTree_unplaced (first : Expr) (links : List Link) :
    chainTree first.unplaced (links.map Link.unplaced) = (chainTree first links).unplaced := by
  induction links generalizing first with
  | nil => rfl
  -- the first link joins the operand in front, and the rest is folded over both
  | cons l ls ih => exact ih (.binary l.op first l.operand l.position)

end MiniPascal

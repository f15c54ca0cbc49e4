/-
`Walk.lean` -- how a cursor moves over tokens.

A rule reads tokens by `advance` and by nothing else, so the way of a cursor is a
sequence of steps, each of which passes one token that is not the end of the input:
`c.Walks ts d` says that passing the tokens `ts` leads from `c` to `d`. Two facts make
the relation useful. A walk can be cut in two at any token (`Walks.cut`), so a walk over
a phrase is a walk over its parts; and it neither asks for the depth nor changes it
(`Walks.atDepth`), so the levels can be counted apart from the tokens.

The second half opens the rules for single tokens once. Later files use the equations
here and do not look into a rule's state again.
-/
import MiniPascal.Grammar.Program
import MiniPascal.Proofs.Phrase
import MiniPascal.Proofs.Stateful

set_option autoImplicit false

namespace MiniPascal

namespace Kind

@[simp] theorem alike_terminal_iff {kind : Kind} {which : Terminal} :
    kind.alike (.terminal which) = true ↔ kind = .terminal which := by
  cases kind <;> simp [alike]

theorem isEnd_iff {kind : Kind} : kind.isEnd = true ↔ kind = .endOfInput := by
  cases kind <;> simp [isEnd]

end Kind

theorem Token.Is.not_end {t : Token} {which : Terminal} (h : t.Is which) :
    t.kind.isEnd = false := by
  rw [show t.kind = .terminal which from h]
  rfl

theorem Token.Names.not_end {t : Token} {name : String} (h : t.Names name) :
    t.kind.isEnd = false := by
  rw [show t.kind = .identifier name from h]
  rfl

theorem Phrase.Additive.not_end {kind : Kind} {op : BinaryOperator}
    (h : Phrase.Additive kind op) : kind.isEnd = false := by
  cases h <;> rfl

theorem Phrase.Multiplicative.not_end {kind : Kind} {op : BinaryOperator}
    (h : Phrase.Multiplicative kind op) : kind.isEnd = false := by
  cases h <;> rfl

theorem Phrase.Sign.not_end {kind : Kind} {op : UnaryOperator} (h : Phrase.Sign kind op) :
    kind.isEnd = false := by
  cases h <;> rfl

theorem Phrase.TypeWord.not_end {kind : Kind} {type : VariableType}
    (h : Phrase.TypeWord kind type) : kind.isEnd = false := by
  cases h <;> rfl

/-! ## Walks -/

namespace Cursor

/-- Passing the tokens `ts`, none of which is the end of the input, leads from one
cursor to another. -/
inductive Walks : Cursor → List Token → Cursor → Prop
  | stay (c : Cursor) : Walks c [] c
  | step {c d c' : Cursor} {ts : List Token} :
      c.current.kind.isEnd = false → Rule.advance c = .ok c.current d → Walks d ts c' →
      Walks c (c.current :: ts) c'

theorem Walks.trans {c d c' : Cursor} {ts us : List Token}
    (h : c.Walks ts d) (h' : d.Walks us c') : c.Walks (ts ++ us) c' := by
  induction h with
  | stay => exact h'
  | step hend hadvance _ ih => exact .step hend hadvance (ih h')

/-- A walk over two sequences stops between them. -/
theorem Walks.cut {c c' : Cursor} {ts us : List Token} (h : c.Walks (ts ++ us) c') :
    ∃ d, c.Walks ts d ∧ d.Walks us c' := by
  induction ts generalizing c with
  | nil => exact ⟨c, .stay c, h⟩
  | cons t ts ih =>
    cases h with
    | step hend hadvance h =>
      obtain ⟨d, hts, hus⟩ := ih h
      exact ⟨d, .step hend hadvance hts, hus⟩

/-- The first token of a walk is the current one. -/
theorem Walks.uncons {c c' : Cursor} {t : Token} {ts : List Token} (h : c.Walks (t :: ts) c') :
    t = c.current ∧ t.kind.isEnd = false ∧
      ∃ d, Rule.advance c = .ok t d ∧ d.Walks ts c' := by
  cases h with
  | step hend hadvance h => exact ⟨rfl, hend, _, hadvance, h⟩

/-- A walk over no token goes nowhere. -/
theorem Walks.eq_of_nil {c c' : Cursor} (h : c.Walks [] c') : c' = c := by
  cases h
  rfl

/-- What a step of a walk is, in terms of the stream. -/
theorem advance_eq_ok_iff {c d : Cursor} {t : Token} :
    Rule.advance c = .ok t d ↔
      t = c.current ∧ ∃ next rest, c.stream.read = (.ok next, rest) ∧
        d = { c with current := next, stream := rest, seen := note c.seen next } := by
  unfold Rule.advance
  rcases hread : c.stream.read with ⟨answer, rest⟩
  cases answer with
  | error e => simp
  | ok next =>
    constructor
    · intro h
      cases h
      exact ⟨rfl, next, rest, rfl, rfl⟩
    · rintro ⟨rfl, next', rest', hread', rfl⟩
      cases hread'
      rfl

theorem depth_advance {c d : Cursor} {t : Token} (h : Rule.advance c = .ok t d) :
    d.depth = c.depth := by
  obtain ⟨-, next, rest, -, rfl⟩ := advance_eq_ok_iff.mp h
  rfl

/-- Reading a token leaves the depth alone. -/
theorem Walks.depth_eq {c c' : Cursor} {ts : List Token} (h : c.Walks ts c') :
    c'.depth = c.depth := by
  induction h with
  | stay => rfl
  | step _ hadvance _ ih => rw [ih, depth_advance hadvance]

/-- A walk does not ask at which depth it is made. -/
theorem Walks.atDepth {c c' : Cursor} {ts : List Token} (h : c.Walks ts c') (depth : Nat) :
    Walks { c with depth } ts { c' with depth } := by
  induction h with
  | stay => exact .stay _
  | @step c d c' ts hend hadvance _ ih =>
    -- the same answer of the stream makes the same step at the other depth
    obtain ⟨-, next, rest, hread, rfl⟩ := advance_eq_ok_iff.mp hadvance
    exact .step hend (advance_eq_ok_iff.mpr ⟨rfl, next, rest, hread, rfl⟩) ih

/-! ## Progress

Loops of the rules go on only while fewer tokens are left. After a step that is so,
as long as the stream ends in the end of the input. -/

/-- The stream ends where the input does. -/
def Closed (c : Cursor) : Prop := c.stream.last.kind.isEnd = true

theorem last_read {s rest : TokenStream} {answer : Answer} (h : s.read = (answer, rest)) :
    rest.last = s.last := by
  unfold TokenStream.read at h
  split at h <;> (cases h; rfl)

theorem closed_advance {c d : Cursor} {t : Token} (hc : c.Closed)
    (h : Rule.advance c = .ok t d) : d.Closed := by
  obtain ⟨-, next, rest, hread, rfl⟩ := advance_eq_ok_iff.mp h
  rw [Closed, last_read hread]
  exact hc

theorem Walks.closed {c c' : Cursor} {ts : List Token} (h : c.Walks ts c') (hc : c.Closed) :
    c'.Closed := by
  induction h with
  | stay => exact hc
  | step _ hadvance _ ih => exact ih (closed_advance hc hadvance)

theorem remaining_advance_lt {c d : Cursor} {t : Token} (hc : c.Closed)
    (hend : c.current.kind.isEnd = false) (h : Rule.advance c = .ok t d) :
    d.remaining < c.remaining := by
  obtain ⟨-, next, rest, hread, rfl⟩ := advance_eq_ok_iff.mp h
  have hremaining : c.remaining = c.stream.upcoming.length + 1 := by
    rw [remaining, hend]
    rfl
  rw [hremaining]
  unfold TokenStream.read at hread
  split at hread
  -- the next token is the end of the input, which does not count
  · cases hread
    have hlast : remaining { c with current := c.stream.last } = 0 := if_pos hc
    exact Nat.lt_of_le_of_lt (Nat.le_of_eq hlast) (Nat.succ_pos _)
  -- the next token counts at most as much as the answer it is
  · next hup =>
    cases hread
    rw [hup, List.length_cons, remaining]
    dsimp only
    split <;> omega

theorem Walks.remaining_le {c c' : Cursor} {ts : List Token} (h : c.Walks ts c')
    (hc : c.Closed) : c'.remaining ≤ c.remaining := by
  induction h with
  | stay => exact Nat.le_refl _
  | @step c d c' ts hend hadvance h ih =>
    exact Nat.le_of_lt (Nat.lt_of_le_of_lt (ih (closed_advance hc hadvance))
      (remaining_advance_lt hc hend hadvance))

/-- Passing a token leaves fewer of them. -/
theorem Walks.remaining_lt {c c' : Cursor} {t : Token} {ts : List Token}
    (h : c.Walks (t :: ts) c') (hc : c.Closed) : c'.remaining < c.remaining := by
  obtain ⟨rfl, hend, d, hadvance, h⟩ := h.uncons
  exact Nat.lt_of_le_of_lt (h.remaining_le (closed_advance hc hadvance))
    (remaining_advance_lt hc hend hadvance)

end Cursor

/-! ## Rules, one step at a time -/

namespace Rule

variable {α β : Type} {c c' d : Cursor}

@[simp] theorem peek_bind (f : Kind → Rule β) (c : Cursor) :
    (peek >>= f) c = f c.current.kind c := rfl

@[simp] theorem here_bind (f : Position → Rule β) (c : Cursor) :
    (here >>= f) c = f c.current.position c := rfl

/-- Reading on from a token that is not the end passes that token. -/
theorem walks_of_advance {t : Token} (hend : c.current.kind.isEnd = false)
    (h : advance c = .ok t d) : t = c.current ∧ c.Walks [t] d := by
  obtain ⟨rfl, -⟩ := Cursor.advance_eq_ok_iff.mp h
  exact ⟨rfl, .step hend h (.stay d)⟩

/-- `eat` looks at the current token, and passes it if it is the one. -/
theorem eat_apply (which : Terminal) (c : Cursor) :
    eat which c = if c.current.kind.alike (.terminal which) then advance c
      else expected (.terminal which) c := by
  unfold eat
  rw [peek_bind]
  split <;> rfl

/-- `eat` succeeds only on the terminal it was given. -/
theorem walks_of_eat {which : Terminal} {t : Token} (h : eat which c = .ok t d) :
    t.Is which ∧ c.Walks [t] d := by
  rw [eat_apply] at h
  split at h
  · next halike =>
    have hkind : c.current.Is which := Kind.alike_terminal_iff.mp halike
    obtain ⟨rfl, hwalk⟩ := walks_of_advance hkind.not_end h
    exact ⟨hkind, hwalk⟩
  · cases h

/-- `eat` passes the terminal it was given. -/
theorem eat_of_advance {which : Terminal} {t : Token} (ht : t.Is which) (hc : c.current = t)
    (h : advance c = .ok t d) : eat which c = .ok t d := by
  rw [eat_apply, hc, if_pos (Kind.alike_terminal_iff.mpr ht), h]

/-- `identifier` succeeds only on a name. -/
theorem walks_of_identifier {name : Identifier} (h : identifier c = .ok name d) :
    ∃ t, Phrase.IsIdentifier 0 [t] name ∧ c.Walks [t] d := by
  unfold identifier at h
  rw [here_bind, peek_bind] at h
  cases hkind : c.current.kind with
  | identifier word =>
    rw [hkind] at h
    obtain ⟨t, c₁, hadvance, h⟩ := bind_eq_ok_iff.mp h
    cases h
    have hnames : c.current.Names word := hkind
    obtain ⟨rfl, hwalk⟩ := walks_of_advance hnames.not_end hadvance
    exact ⟨c.current, .mk hnames, hwalk⟩
  | _ =>
    rw [hkind] at h
    cases h

/-- `identifier` passes a name. -/
theorem identifier_of_advance {word : String} {t : Token} (ht : t.Names word)
    (hc : c.current = t) (h : advance c = .ok t d) :
    identifier c = .ok ⟨word, t.position⟩ d := by
  unfold identifier
  rw [here_bind, peek_bind, hc, show t.kind = .identifier word from ht]
  exact bind_of_ok h _

end Rule

end MiniPascal

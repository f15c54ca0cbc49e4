/-
`Place.lean` -- places counted at once, and their order.

Walking over a text moves a place step by step. The place that is reached can also be
read off the text as a whole: the line counts the line feeds, and the column counts the
bytes behind the last of them (`behind`). That the two agree is the content of the first
half (`advance_behind`).

Every character moves a place forward in reading order, so places behind different
prefixes of a text are different (`Precedes.advance`). This is what makes a place a name for
a token.
-/
import MiniPascal.Position

set_option autoImplicit false

namespace MiniPascal

namespace Position

/-! ## Places of prefixes -/

theorem bytes_append (cs ds : List Char) : bytes (cs ++ ds) = bytes cs + bytes ds := by
  induction cs with
  | nil => exact (Nat.zero_add _).symm
  | cons c cs ih => rw [List.cons_append, bytes, bytes, ih, Nat.add_assoc]

/-- What a text holds behind its last line feed. -/
def lastLine (text : List Char) : List Char := (text.reverse.takeWhile (· != '\n')).reverse

/-- The place behind a text that begins at the start: a line for each line feed, and a
column for each byte since the last one. -/
def behind (text : List Char) : Position :=
  ⟨1 + text.count '\n', 1 + bytes (lastLine text)⟩

@[simp] theorem behind_nil : behind [] = start := rfl

theorem lastLine_concat_feed (text : List Char) : lastLine (text ++ ['\n']) = [] := by
  rw [lastLine, List.reverse_concat, List.takeWhile_cons_of_neg (by decide)]
  rfl

theorem lastLine_concat {c : Char} (h : c ≠ '\n') (text : List Char) :
    lastLine (text ++ [c]) = lastLine text ++ [c] := by
  rw [lastLine, List.reverse_concat, List.takeWhile_cons_of_pos (by simpa using h),
    List.reverse_cons]
  rfl

theorem behind_concat (text : List Char) (c : Char) :
    behind (text ++ [c]) = (behind text).step c := by
  by_cases h : c = '\n'
  · subst h
    rw [behind, lastLine_concat_feed, List.count_append, step, if_pos rfl]
    rfl
  · have hcount : (text ++ [c]).count '\n' = text.count '\n' := by
      rw [List.count_append, List.count_singleton, if_neg (by simpa using h), Nat.add_zero]
    have hbytes : bytes [c] = c.utf8Size := Nat.add_zero _
    rw [behind, lastLine_concat h, bytes_append, hcount, hbytes, ← Nat.add_assoc, step, if_neg h]
    rfl

/-- Walking on from behind a text leads behind the longer one. -/
theorem advance_behind (text cs : List Char) :
    (behind text).advance cs = behind (text ++ cs) := by
  induction cs generalizing text with
  | nil => rw [List.append_nil, advance_nil]
  | cons c cs ih => rw [advance_cons, ← behind_concat, ih, List.append_cons text c cs]

/-! ## Reading order -/

/-- One place comes before another one. -/
def Precedes (p q : Position) : Prop :=
  p.line < q.line ∨ (p.line = q.line ∧ p.column < q.column)

theorem Precedes.trans {p q r : Position} (h : p.Precedes q) (h' : q.Precedes r) :
    p.Precedes r := by
  unfold Precedes at h h' ⊢
  omega

theorem Precedes.ne {p q : Position} (h : p.Precedes q) : p ≠ q := by
  rintro rfl
  unfold Precedes at h
  omega

theorem precedes_step (p : Position) (c : Char) : p.Precedes (p.step c) := by
  have hbytes : 0 < c.utf8Size := c.utf8Size_pos
  unfold Precedes step
  split
  · exact .inl (Nat.lt_succ_self _)
  · exact .inr ⟨rfl, Nat.lt_add_of_pos_right hbytes⟩

/-- Whatever comes before a place comes before all places behind it. -/
theorem Precedes.advance {p q : Position} (h : p.Precedes q) (cs : List Char) :
    p.Precedes (q.advance cs) := by
  induction cs generalizing q with
  | nil => exact h
  | cons c cs ih => exact ih (h.trans (q.precedes_step c))

theorem precedes_advance (p : Position) {cs : List Char} (h : cs ≠ []) :
    p.Precedes (p.advance cs) := by
  cases cs with
  | nil => exact absurd rfl h
  | cons c cs => exact (p.precedes_step c).advance cs

end Position

end MiniPascal

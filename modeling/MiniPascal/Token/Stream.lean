/-
`Stream.lean` -- the tokens of a text, one reading at a time.

A text is cut into lexemes once (`Cutting.ofText`), each with the place where it
starts. Leaving out the layout gives the answers of the scanner: tokens, and
errors for the pieces that are no lexemes. An error does not stop the scanner; the
text behind the bad piece is cut as if nothing had happened.

A `TokenStream` hands the answers out. There are two ways to ask. `read` always has
an answer, and goes on answering the end of the input when there is nothing else.
`next?` is for those who want to see every token once: it stops after the end of
the input, and also after an error it has itself reported. They share one flag, so
they can be mixed.
-/
import MiniPascal.Token.Lexeme

set_option autoImplicit false

namespace MiniPascal

/-! ## A text in pieces -/

/-- All lexemes of a text with the places where they start, and the place where the
text stops. -/
structure Cutting where
  lexemes : List (Lexeme × Position)
  stop : Position

namespace Cutting

/-- Cuts a text that begins at `p`. -/
def ofText (p : Position) : List Char → Cutting
  | [] => ⟨[], p⟩
  | c :: rest =>
    let piece := Lexeme.cut c rest
    let more := ofText (piece.1.stop p) piece.2
    ⟨(piece.1, p) :: more.lexemes, more.stop⟩
termination_by text => text.length
decreasing_by exact Lexeme.length_cut_lt c rest

end Cutting

/-! ## Answers -/

/-- What the scanner answers: a token, or what stands in its place. -/
abbrev Answer := Except (Error LexicalFault) Token

/-- The answer for a lexeme that starts at `p`; layout has none. -/
def Lexeme.answer? (lexeme : Lexeme) (p : Position) : Option Answer :=
  match lexeme.content with
  | .ok (.layout _) => none
  | .ok kind => some (.ok ⟨kind, String.ofList lexeme.chars, p⟩)
  | .error fault => some (.error ⟨fault, p⟩)

/-- The answers still to be given, the token that follows them for ever, and
whether the stream counts as finished. -/
structure TokenStream where
  upcoming : List Answer
  last : Token
  finished : Bool

namespace TokenStream

/-- The stream of a source text. -/
def ofSource (source : String) : TokenStream :=
  let cutting := Cutting.ofText .start source.toList
  { upcoming := cutting.lexemes.filterMap fun (lexeme, p) => lexeme.answer? p
    last := ⟨.endOfInput, "", cutting.stop⟩
    finished := false }

/-- The next answer. Behind the last one the end of the input repeats. -/
def read (s : TokenStream) : Answer × TokenStream :=
  match s.upcoming with
  | [] => (.ok s.last, { s with finished := true })
  | answer :: rest => (answer, { s with upcoming := rest })

/-- The next answer, as long as the stream is not finished. -/
def next? (s : TokenStream) : Option Answer × TokenStream :=
  if s.finished then (none, s)
  else
    match s.read with
    | (.ok token, s) => (some (.ok token), s)
    | (.error e, s) => (some (.error e), { s with finished := true })

/-- How many answers `next?` has left, at most. -/
def remaining (s : TokenStream) : Nat :=
  if s.finished then 0 else s.upcoming.length + 1

theorem remaining_next?_lt {s t : TokenStream} {answer : Answer}
    (h : s.next? = (some answer, t)) : t.remaining < s.remaining := by
  unfold next? read at h
  unfold remaining
  cases hf : s.finished with
  | true => simp [hf] at h
  | false =>
    cases hu : s.upcoming with
    | nil =>
      simp only [hf, hu] at h
      obtain ⟨-, rfl⟩ := Prod.mk.inj h
      simp
    | cons first rest =>
      cases first <;>
      · simp only [hf, hu] at h
        obtain ⟨-, rfl⟩ := Prod.mk.inj h
        simp

/-- Everything `next?` answers, one after another: the tokens up to the end of the
input, or up to the first error. -/
def drain (s : TokenStream) : List Answer :=
  match h : s.next? with
  | (none, _) => []
  | (some answer, t) =>
    have := remaining_next?_lt h
    answer :: t.drain
termination_by s.remaining

end TokenStream

end MiniPascal

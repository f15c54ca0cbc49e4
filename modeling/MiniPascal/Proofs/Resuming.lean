/-
`Resuming.lean` -- reading on behind errors.

An error does not stop the scanner: whoever goes on reading is given the answers for the
text behind the bad piece. `TokenizesOn` says what all answers for a text are to be, over
errors and up to its end, and puts each of them at the place where its own text begins. The
scanner gives these answers for every text (`TokenStream.resumes_ofText`).

The end of the input is not among them, since it has no text. It stands where the source
ends, with one exception: an unclosed comment takes the rest of the source along, and its
line feeds do not begin lines. The end of the input behind such a comment is counted in the
columns of the line where the comment begins. So all answers are in place exactly if the text
that is taken along has no line feed (`answers_in_place_iff`), and a comment of one line feed
is enough to displace the end (`end_displaced`).
-/
import MiniPascal.Proofs.Tokenization

set_option autoImplicit false

namespace MiniPascal

open Lexeme

/-! ## Readings by number -/

namespace TokenStream

/-- The stream after so many readings. -/
def afterReads (s : TokenStream) : Nat → TokenStream
  | 0 => s
  | k + 1 => (s.afterReads k).read.2

/-- What the reading with a given number answers; the first one has number 0. -/
def answer (s : TokenStream) (k : Nat) : Answer := (s.afterReads k).read.1

theorem read_eq (s : TokenStream) : s.read.1 = s.upcoming.head?.getD (.ok s.last) := by
  unfold read
  cases s.upcoming <;> rfl

theorem upcoming_read (s : TokenStream) : s.read.2.upcoming = s.upcoming.tail := by
  unfold read
  split
  · next h => rw [h, List.tail_nil]
  · next h => rw [h, List.tail_cons]

theorem last_read_eq (s : TokenStream) : s.read.2.last = s.last := by
  unfold read
  cases s.upcoming <;> rfl

theorem upcoming_afterReads (s : TokenStream) (k : Nat) :
    (s.afterReads k).upcoming = s.upcoming.drop k := by
  induction k with
  | zero => rfl
  | succ k ih => rw [afterReads, upcoming_read, ih, List.tail_drop]

theorem last_afterReads (s : TokenStream) (k : Nat) : (s.afterReads k).last = s.last := by
  induction k with
  | zero => rfl
  | succ k ih => rw [afterReads, last_read_eq, ih]

/-- Readings give what is upcoming, one by one, and then the last token for ever. -/
theorem answer_eq (s : TokenStream) (k : Nat) : s.answer k = s.upcoming[k]?.getD (.ok s.last) := by
  rw [answer, read_eq, upcoming_afterReads, last_afterReads, List.head?_drop]

/-! ## The stream of a text -/

/-- The stream of a text that begins at `p`. -/
def ofText (p : Position) (text : List Char) : TokenStream :=
  let cutting := Cutting.ofText p text
  { upcoming := cutting.lexemes.filterMap fun (lexeme, p) => lexeme.answer? p
    last := ⟨.endOfInput, "", cutting.stop⟩
    finished := false }

theorem ofSource_eq (source : String) : ofSource source = ofText .start source.toList := rfl

theorem ofText_nil (p : Position) : ofText p [] = ⟨[], ⟨.endOfInput, "", p⟩, false⟩ := by
  rw [ofText, Cutting.ofText]
  rfl

variable {p : Position} {c : Char} {cs : List Char} {lexeme : Lexeme} {rest : List Char}

theorem upcoming_ofText_cons (h : cut c cs = (lexeme, rest)) :
    (ofText p (c :: cs)).upcoming =
      (lexeme.answer? p).toList ++ (ofText (lexeme.stop p) rest).upcoming := by
  rw [ofText, Cutting.ofText, h]
  dsimp only
  rw [List.filterMap_cons]
  dsimp only
  cases lexeme.answer? p <;> rfl

theorem last_ofText_cons (h : cut c cs = (lexeme, rest)) :
    (ofText p (c :: cs)).last = (ofText (lexeme.stop p) rest).last := by
  rw [ofText, Cutting.ofText, h]
  rfl

end TokenStream

/-! ## All answers for a text -/

/-- What all answers for a text behind `before` are to be, if reading goes on behind errors.
The last list is what an unclosed comment takes along: without one, nothing. -/
inductive TokenizesOn : List Char → List Char → List Answer → List Char → Prop
  /-- Nothing but trivia is left. -/
  | finish {before gap} : Trivia gap → TokenizesOn before gap [] []
  /-- Behind trivia, the longest text of a token is that token. -/
  | token {before gap chars rest kind answers taken} :
      Trivia gap → Pattern chars (.ok kind) → Longest chars rest →
      TokenizesOn (before ++ gap ++ chars) rest answers taken →
      TokenizesOn before (gap ++ (chars ++ rest))
        (.ok ⟨kind, String.ofList chars, .behind (before ++ gap)⟩ :: answers) taken
  /-- The longest text is a number that is out of range, and reading goes on behind it. -/
  | outOfRange {before gap chars rest fault answers taken} :
      Trivia gap → Pattern chars (.error fault) → Longest chars rest →
      TokenizesOn (before ++ gap ++ chars) rest answers taken →
      TokenizesOn before (gap ++ (chars ++ rest))
        (.error ⟨fault, .behind (before ++ gap)⟩ :: answers) taken
  /-- A comment begins, and there is nothing that closes it. -/
  | unclosed {before gap rest} :
      Trivia gap → '}' ∉ rest →
      TokenizesOn before (gap ++ '{' :: rest) [.error ⟨.unclosedComment, .behind (before ++ gap)⟩]
        ('{' :: rest)
  /-- What stands here is no trivia, and no pattern matches it: reading goes on behind one
  character. -/
  | unrecognized {before gap c rest answers taken} :
      Trivia gap → isBlank c = false → c ≠ '\n' → c ≠ '{' →
      (∀ chars content, Pattern chars content → ¬ chars <+: c :: rest) →
      TokenizesOn (before ++ gap ++ [c]) rest answers taken →
      TokenizesOn before (gap ++ c :: rest)
        (.error ⟨.unrecognizedCharacter c, .behind (before ++ gap)⟩ :: answers) taken

/-- Trivia in front of a text adds to the trivia in front of what comes next. -/
theorem TokenizesOn.after_trivia {before gap rest taken : List Char} {answers : List Answer}
    (hgap : Trivia gap) (h : TokenizesOn (before ++ gap) rest answers taken) :
    TokenizesOn before (gap ++ rest) answers taken := by
  generalize hwhole : before ++ gap = whole at h
  cases h with
  | finish htrivia => exact .finish (hgap.append htrivia)
  | token htrivia hpattern hlongest hrest =>
    subst hwhole
    rw [← List.append_assoc gap, List.append_assoc before]
    refine .token (hgap.append htrivia) hpattern hlongest ?_
    rwa [← List.append_assoc before]
  | outOfRange htrivia hpattern hlongest hrest =>
    subst hwhole
    rw [← List.append_assoc gap, List.append_assoc before]
    refine .outOfRange (hgap.append htrivia) hpattern hlongest ?_
    rwa [← List.append_assoc before]
  | unclosed htrivia hnone =>
    subst hwhole
    rw [← List.append_assoc gap, List.append_assoc before]
    exact .unclosed (hgap.append htrivia) hnone
  | unrecognized htrivia hblank hfeed hbrace hnone hrest =>
    subst hwhole
    rw [← List.append_assoc gap, List.append_assoc before]
    refine .unrecognized (hgap.append htrivia) hblank hfeed hbrace hnone ?_
    rwa [← List.append_assoc before]

/-- What comes of the text behind `before`: answers that are in place, and an end of the input
that is counted on from what was kept. -/
structure Resumes (before text : List Char) (s : TokenStream) (kept taken : List Char) : Prop where
  whole : kept ++ taken = text
  tokenizes : TokenizesOn before text s.upcoming taken
  last_eq : s.last = ⟨.endOfInput, "", (Position.behind (before ++ kept)).shift taken⟩

namespace TokenStream

/-- The step lemma: a piece from which places are counted on as usual stands in front of what
comes of the rest, if its own answer does. -/
theorem resumes_cons {before cs rest kept taken : List Char} {c : Char} {lexeme : Lexeme}
    (hcut : cut c cs = (lexeme, rest)) (hordinary : lexeme.content ≠ .error .unclosedComment)
    (hrest : Resumes (before ++ lexeme.chars) rest
      (ofText (.behind (before ++ lexeme.chars)) rest) kept taken)
    (hanswer : ∀ answers, TokenizesOn (before ++ lexeme.chars) rest answers taken →
      TokenizesOn before (c :: cs) ((lexeme.answer? (.behind before)).toList ++ answers) taken) :
    Resumes before (c :: cs) (ofText (.behind before) (c :: cs)) (lexeme.chars ++ kept) taken := by
  have happend := cut_append c cs
  rw [hcut] at happend
  have hstop : lexeme.stop (.behind before) = .behind (before ++ lexeme.chars) := by
    rw [← Position.advance_behind, Lexeme.stop]
    split
    · next h => exact absurd h hordinary
    · rfl
  refine ⟨?_, ?_, ?_⟩
  · rw [List.append_assoc, hrest.whole, happend]
  · rw [upcoming_ofText_cons hcut, hstop]
    exact hanswer _ hrest.tokenizes
  · rw [last_ofText_cons hcut, hstop, hrest.last_eq, List.append_assoc]

/-- The scanner follows the rules to the end of the text. -/
theorem resumes_ofText (before text : List Char) :
    ∃ kept taken, Resumes before text (ofText (.behind before) text) kept taken := by
  induction hlength : text.length using Nat.strongRecOn generalizing before text with
  | ind n ih =>
    cases text with
    | nil =>
      refine ⟨[], [], rfl, ?_, ?_⟩
      · rw [ofText_nil]
        exact .finish .nil
      · rw [ofText_nil, List.append_nil]
        rfl
    | cons c cs =>
      have hless := hlength ▸ length_cut_lt c cs
      have happend := cut_append c cs
      have houtcome := outcome_cut c cs
      cases hcut : cut c cs with
      | mk lexeme rest =>
        rw [hcut] at hless happend houtcome
        obtain ⟨kept, taken, hrest⟩ := ih _ hless (before ++ lexeme.chars) rest rfl
        cases houtcome with
        | @layout which chars _ htrivia =>
          refine ⟨_, taken, resumes_cons hcut nofun hrest fun answers h => ?_⟩
          rw [← happend]
          exact h.after_trivia htrivia
        | @lexeme content chars _ hpattern =>
          have hlongest : Longest chars rest := longest_of_cut hcut
          refine ⟨_, taken, resumes_cons hcut (by rintro rfl; cases hpattern) hrest
            fun answers h => ?_⟩
          rw [← happend, ← List.nil_append (chars ++ rest)]
          have hgap : before ++ [] ++ chars = before ++ chars := by rw [List.append_nil]
          cases content with
          | error fault =>
            have herror := TokenizesOn.outOfRange .nil hpattern hlongest (hgap ▸ h)
            rwa [List.append_nil] at herror
          | ok kind =>
            have htoken := TokenizesOn.token .nil hpattern hlongest (hgap ▸ h)
            rw [List.append_nil] at htoken
            -- no pattern is for layout, so the lexeme has an answer
            cases hpattern <;> exact htoken
        | unclosed hbrace hnone =>
          have herror := @TokenizesOn.unclosed before _ _ .nil hnone
          rw [List.append_nil] at herror
          refine ⟨[], c :: cs, rfl, ?_, ?_⟩
          · rw [upcoming_ofText_cons hcut, ofText_nil, hbrace]
            exact herror
          · rw [last_ofText_cons hcut, ofText_nil, List.append_nil]
            rfl
        | nothing hblank hfeed hbrace hnone =>
          refine ⟨_, taken, resumes_cons hcut nofun hrest fun answers h => ?_⟩
          have hafter : TokenizesOn (before ++ [] ++ [c]) cs answers taken := by
            rwa [List.append_nil]
          have herror := TokenizesOn.unrecognized .nil hblank hfeed hbrace hnone hafter
          rwa [List.append_nil] at herror

end TokenStream

/-! ## Places -/

/-- Counting a text in columns leads to its end exactly if it has no line feed. -/
theorem Position.shift_behind_eq_iff (kept taken : List Char) :
    (behind kept).shift taken = behind (kept ++ taken) ↔ '\n' ∉ taken := by
  constructor
  · intro h
    have hline : 1 + kept.count '\n' = 1 + (kept ++ taken).count '\n' := congrArg line h
    rw [List.count_append] at hline
    exact List.count_eq_zero.mp (by omega)
  · intro h
    rw [shift_eq_advance _ _ h, advance_behind]

/-- Every answer stands where its own text begins, and the end of the input where the source
ends. -/
def AnswersInPlace (source : String) : Prop :=
  ∃ answers taken, TokenizesOn [] source.toList answers taken ∧
    ∀ k, (TokenStream.ofSource source).answer k =
      answers[k]?.getD (.ok ⟨.endOfInput, "", .behind source.toList⟩)

section

variable {source : String} {kept taken : List Char}
  (h : Resumes [] source.toList (TokenStream.ofSource source) kept taken)
include h

theorem Resumes.answer_eq (k : Nat) : (TokenStream.ofSource source).answer k =
    (TokenStream.ofSource source).upcoming[k]?.getD
      (.ok ⟨.endOfInput, "", (Position.behind kept).shift taken⟩) := by
  rw [TokenStream.answer_eq, h.last_eq, List.nil_append]

/-- It is the line feeds taken along that displace the end. -/
theorem Resumes.answersInPlace_iff : AnswersInPlace source ↔ '\n' ∉ taken := by
  rw [← Position.shift_behind_eq_iff kept, h.whole]
  constructor
  · rintro ⟨answers, taken', -, hplace⟩
    -- far enough behind, both lists of answers have ended
    have hend := hplace (max answers.length (TokenStream.ofSource source).upcoming.length)
    rw [h.answer_eq, List.getElem?_eq_none (Nat.le_max_right _ _),
      List.getElem?_eq_none (Nat.le_max_left _ _)] at hend
    exact congrArg Token.position (Except.ok.inj hend)
  · intro hstop
    exact ⟨_, taken, h.tokenizes, fun k => by rw [h.answer_eq, hstop]⟩

end

/-- **Places behind errors.** Reading on and on gives the answers for the whole source, each
at the place where its own text begins, no matter how many of them are errors; and then the
end of the input. That one is in place as well, unless an unclosed comment has taken a line
feed along. -/
theorem answers_in_place_iff (source : String) :
    ∃ answers kept taken, kept ++ taken = source.toList ∧
      TokenizesOn [] source.toList answers taken ∧
      (∀ k, (TokenStream.ofSource source).answer k =
        answers[k]?.getD (.ok ⟨.endOfInput, "", (Position.behind kept).shift taken⟩)) ∧
      (AnswersInPlace source ↔ '\n' ∉ taken) := by
  obtain ⟨kept, taken, hresumes⟩ := TokenStream.resumes_ofText [] source.toList
  have hsource : Resumes [] source.toList (TokenStream.ofSource source) kept taken := hresumes
  exact ⟨_, kept, taken, hsource.whole, hsource.tokenizes, hsource.answer_eq,
    hsource.answersInPlace_iff⟩

/-- A brace and a line feed: the end of the input behind them is reported on the first line,
although the source ends on the second. -/
theorem end_displaced :
    (TokenStream.ofSource "\x7b\n").answer 0 = .error ⟨.unclosedComment, ⟨1, 1⟩⟩ ∧
      (TokenStream.ofSource "\x7b\n").answer 1 = .ok ⟨.endOfInput, "", ⟨1, 3⟩⟩ ∧
      Position.behind "\x7b\n".toList = ⟨2, 1⟩ ∧ ¬ AnswersInPlace "\x7b\n" := by
  have hcut : cut '{' ['\n'] = (⟨.error .unclosedComment, ['{', '\n']⟩, []) := rfl
  have hupcoming : (TokenStream.ofSource "\x7b\n").upcoming =
      [.error ⟨.unclosedComment, .behind ([] ++ [])⟩] := by
    rw [TokenStream.ofSource_eq]
    exact (TokenStream.upcoming_ofText_cons hcut).trans (by rw [TokenStream.ofText_nil]; rfl)
  have hlast : (TokenStream.ofSource "\x7b\n").last = ⟨.endOfInput, "", ⟨1, 3⟩⟩ := by
    rw [TokenStream.ofSource_eq]
    exact (TokenStream.last_ofText_cons hcut).trans (by rw [TokenStream.ofText_nil]; rfl)
  have hresumes : Resumes [] "\x7b\n".toList (TokenStream.ofSource "\x7b\n") [] ['{', '\n'] := by
    refine ⟨rfl, ?_, hlast⟩
    rw [hupcoming]
    exact @TokenizesOn.unclosed [] [] ['\n'] .nil (by decide)
  refine ⟨?_, ?_, rfl, fun hplace => ?_⟩
  · rw [TokenStream.answer_eq, hupcoming]
    rfl
  · rw [TokenStream.answer_eq, hupcoming, hlast]
    rfl
  · exact hresumes.answersInPlace_iff.mp hplace (by decide)

end MiniPascal

/-
`Scan.lean` -- sources as sequences of tokens.

The tokens of a source are what its stream hands out, up to the end of the input;
they exist if the scanner has nothing to complain about (`Scans`). Everything about
parsing a source is stated over them. The link to the cursor is that walking over
exactly these tokens is possible, and leads to the end (`walks_to_end_iff`); it needs
that no token before the end claims to be the end, which holds because no lexeme of a
text has that kind (`not_end_of_answer`).
-/
import MiniPascal.Proofs.Walk

set_option autoImplicit false

namespace MiniPascal

/-! ## Lexemes are not the end -/

namespace Lexeme

/-- A lexeme of some text is not the end of the input. -/
def InText (content : Except LexicalFault Kind) : Prop := content ≠ .ok .endOfInput

theorem wordKind_ne_end (chars : List Char) : wordKind chars ≠ .endOfInput := by
  unfold wordKind
  split <;> nofun

theorem inText_integerKind (digits : List Char) : InText (integerKind digits) := by
  unfold integerKind InText
  dsimp only
  split <;> nofun

theorem inText_cutComment (rest : List Char) : InText (cutComment rest).1.content := by
  unfold cutComment InText
  split <;> nofun

theorem inText_cutNumber (c : Char) (rest : List Char) : InText (cutNumber c rest).1.content := by
  unfold cutNumber
  dsimp only
  split
  · split
    · unfold InText realKind
      nofun
    · exact inText_integerKind _
  · exact inText_integerKind _

theorem inText_cutMark (c : Char) (rest : List Char) : InText (cutMark c rest).1.content := by
  unfold cutMark InText
  split
  · nofun
  · split <;> nofun

theorem inText_cut (c : Char) (rest : List Char) : InText (cut c rest).1.content := by
  unfold cut
  split
  · nofun
  split
  · nofun
  split
  · exact inText_cutComment rest
  split
  · intro h
    exact wordKind_ne_end _ (Except.ok.inj h)
  split
  · exact inText_cutNumber c rest
  · exact inText_cutMark c rest

end Lexeme

theorem Cutting.inText_ofText {p : Position} {text : List Char} {lexeme : Lexeme} {q : Position}
    (h : (lexeme, q) ∈ (Cutting.ofText p text).lexemes) : Lexeme.InText lexeme.content := by
  induction hlength : text.length using Nat.strongRecOn generalizing p text with
  | ind n ih =>
    cases text with
    | nil =>
      rw [Cutting.ofText] at h
      cases h
    | cons c rest =>
      rw [Cutting.ofText] at h
      rcases List.mem_cons.mp h with heq | hmem
      · cases heq
        exact Lexeme.inText_cut c rest
      -- what follows the first lexeme was cut from a shorter text
      · exact ih _ (hlength ▸ Lexeme.length_cut_lt c rest) hmem rfl

/-! ## The stream of a source -/

theorem Lexeme.not_end_of_answer {lexeme : Lexeme} {p : Position} {t : Token}
    (htext : Lexeme.InText lexeme.content) (h : lexeme.answer? p = some (.ok t)) :
    t.kind.isEnd = false := by
  unfold Lexeme.answer? at h
  split at h
  · cases h
  · next kind _ hcontent =>
    cases h
    cases hend : kind.isEnd with
    | false => rfl
    -- the answer has the kind of the lexeme, which is not that kind
    | true => exact absurd (hcontent.trans (by rw [Kind.isEnd_iff.mp hend])) htext
  · cases h

namespace TokenStream

/-- A token that is still to come is not the end of the input. -/
theorem not_end_of_upcoming {source : String} {t : Token}
    (h : .ok t ∈ (ofSource source).upcoming) : t.kind.isEnd = false := by
  obtain ⟨⟨lexeme, p⟩, hmem, hanswer⟩ := List.mem_filterMap.mp h
  exact Lexeme.not_end_of_answer (Cutting.inText_ofText hmem) hanswer

theorem drain_of_some {s t : TokenStream} {answer : Answer} (h : s.next? = (some answer, t)) :
    s.drain = answer :: t.drain := by
  rw [drain]
  split
  · next hnone => rw [h] at hnone; cases hnone
  · next hsome => rw [h] at hsome; cases hsome; rfl

theorem drain_of_finished {s : TokenStream} (h : s.finished = true) : s.drain = [] := by
  rw [drain]
  split
  · rfl
  · next hsome =>
    unfold next? at hsome
    rw [if_pos h] at hsome
    cases hsome

/-- The answers up to the first error, and the end of the input if there is none. -/
def untilError (last : Token) : List Answer → List Answer
  | [] => [.ok last]
  | .ok t :: rest => .ok t :: untilError last rest
  | .error e :: _ => [.error e]

theorem drain_eq (upcoming : List Answer) (last : Token) :
    (TokenStream.mk upcoming last false).drain = untilError last upcoming := by
  induction upcoming with
  | nil =>
    have hnext : (TokenStream.mk [] last false).next? = (some (.ok last), ⟨[], last, true⟩) := rfl
    rw [drain_of_some hnext, drain_of_finished rfl]
    rfl
  | cons answer rest ih =>
    cases answer with
    | ok t =>
      have hnext : (TokenStream.mk (.ok t :: rest) last false).next?
          = (some (.ok t), ⟨rest, last, false⟩) := rfl
      rw [drain_of_some hnext, ih]
      rfl
    | error e =>
      have hnext : (TokenStream.mk (.error e :: rest) last false).next?
          = (some (.error e), ⟨rest, last, true⟩) := rfl
      rw [drain_of_some hnext, drain_of_finished rfl]
      rfl

/-- Only tokens and then the end: no answer is an error, and these are the tokens. -/
theorem untilError_eq_iff {last eof : Token} {upcoming : List Answer} {ts : List Token}
    (hlast : last.kind = .endOfInput)
    (hnoend : ∀ t, .ok t ∈ upcoming → t.kind.isEnd = false) :
    (untilError last upcoming = ts.map .ok ++ [.ok eof] ∧ eof.kind = .endOfInput) ↔
      upcoming = ts.map .ok ∧ eof = last := by
  induction upcoming generalizing ts with
  | nil =>
    cases ts with
    | nil =>
      simp only [untilError, List.map_nil, List.nil_append, true_and]
      constructor
      · rintro ⟨h, -⟩
        cases h
        rfl
      · rintro rfl
        exact ⟨rfl, hlast⟩
    | cons t ts => simp [untilError]
  | cons answer rest ih =>
    have hrest : ∀ t, .ok t ∈ rest → t.kind.isEnd = false :=
      fun t ht => hnoend t (List.mem_cons_of_mem _ ht)
    cases answer with
    | error e => cases ts <;> simp [untilError]
    | ok t =>
      cases ts with
      -- the one token left over would have to be the end, and it is not
      | nil =>
        have ht := hnoend t List.mem_cons_self
        simp only [untilError, List.map_nil, List.nil_append, reduceCtorEq, false_and, iff_false]
        rintro ⟨h, heof⟩
        obtain rfl : t = eof := Except.ok.inj (List.cons.inj h).1
        rw [heof] at ht
        cases ht
      | cons u us =>
        simp only [untilError, List.map_cons, List.cons_append, List.cons.injEq, and_assoc,
          ih hrest]

end TokenStream

/-! ## The tokens of a source -/

/-- The source has no lexical error, and these are its tokens before the end of the
input. -/
def Scans (source : String) (ts : List Token) : Prop :=
  ∃ eof, (TokenStream.ofSource source).drain = ts.map .ok ++ [.ok eof] ∧
    eof.kind = .endOfInput

theorem scans_iff_upcoming {source : String} {ts : List Token} :
    Scans source ts ↔ (TokenStream.ofSource source).upcoming = ts.map .ok := by
  have hlast : (TokenStream.ofSource source).last.kind = .endOfInput := rfl
  have hdrain : (TokenStream.ofSource source).drain = TokenStream.untilError
      (TokenStream.ofSource source).last (TokenStream.ofSource source).upcoming :=
    TokenStream.drain_eq _ _
  unfold Scans
  simp only [hdrain,
    TokenStream.untilError_eq_iff hlast fun _ => TokenStream.not_end_of_upcoming]
  constructor
  · rintro ⟨eof, h, -⟩
    exact h
  · intro h
    exact ⟨_, h, rfl⟩

/-! ## Cursors on a source -/

namespace Cursor

/-- The answers from the current token on, without the end of the input. -/
def pending (c : Cursor) : List Answer :=
  if c.current.kind.isEnd then [] else .ok c.current :: c.stream.upcoming

/-- Only the last token of the stream is the end of the input. -/
structure Orderly (c : Cursor) : Prop where
  closed : c.Closed
  not_end : ∀ t, .ok t ∈ c.stream.upcoming → t.kind.isEnd = false

/-- Reading a token leaves what was behind the current one. -/
theorem pending_of_read {s rest : TokenStream} {next : Token} {depth : Nat} {seen : Array Token}
    (hlast : s.last.kind.isEnd = true)
    (hnoend : ∀ t, .ok t ∈ s.upcoming → t.kind.isEnd = false)
    (h : s.read = (.ok next, rest)) :
    pending ⟨next, rest, depth, seen⟩ = s.upcoming ∧ Orderly ⟨next, rest, depth, seen⟩ := by
  have hclosed : Closed ⟨next, rest, depth, seen⟩ := by rw [Closed, last_read h]; exact hlast
  unfold TokenStream.read at h
  split at h
  · next hup =>
    cases h
    rw [hup]
    exact ⟨if_pos hlast, hclosed, fun t ht => absurd ht List.not_mem_nil⟩
  · next answer others hup =>
    cases h
    rw [hup] at hnoend ⊢
    have hnext : ¬ next.kind.isEnd = true := by simp [hnoend next List.mem_cons_self]
    exact ⟨if_neg hnext, hclosed, fun t ht => hnoend t (List.mem_cons_of_mem _ ht)⟩

/-- The tokens up to the end are those that a walk to the end passes. -/
theorem walks_to_end_iff {c : Cursor} {ts : List Token} (hc : c.Orderly) :
    (∃ c', c.Walks ts c' ∧ c'.current.kind.isEnd = true) ↔ c.pending = ts.map .ok := by
  induction ts generalizing c with
  | nil =>
    constructor
    · rintro ⟨c', hwalk, hend⟩
      cases hwalk.eq_of_nil
      exact if_pos hend
    · intro h
      refine ⟨c, .stay c, ?_⟩
      cases hend : c.current.kind.isEnd with
      | true => rfl
      | false => simp [pending, hend] at h
  | cons t ts ih =>
    constructor
    · rintro ⟨c', hwalk, hend⟩
      obtain ⟨rfl, hnotend, d, hadvance, hwalk⟩ := hwalk.uncons
      obtain ⟨-, next, rest, hread, rfl⟩ := advance_eq_ok_iff.mp hadvance
      obtain ⟨hpending, horderly⟩ := pending_of_read hc.closed hc.not_end hread
      have hrest := (ih horderly).mp ⟨c', hwalk, hend⟩
      rw [hpending] at hrest
      simp [pending, hnotend, hrest]
    · intro h
      cases hnotend : c.current.kind.isEnd with
      | true => simp [pending, hnotend] at h
      | false =>
        simp only [pending, hnotend, Bool.false_eq_true, if_false, List.map_cons,
          List.cons.injEq, Except.ok.injEq] at h
        obtain ⟨rfl, hup⟩ := h
        -- no answer is an error, so the next one can be read
        obtain ⟨next, rest, hread⟩ : ∃ next rest, c.stream.read = (.ok next, rest) := by
          unfold TokenStream.read
          rw [hup]
          cases ts with
          | nil => exact ⟨_, _, rfl⟩
          | cons u us => exact ⟨_, _, rfl⟩
        obtain ⟨hpending, horderly⟩ := pending_of_read hc.closed hc.not_end hread
        obtain ⟨c', hwalk, hend⟩ := (ih horderly).mpr (hpending.trans hup)
        exact ⟨c', .step hnotend (advance_eq_ok_iff.mpr ⟨rfl, next, rest, hread, rfl⟩) hwalk, hend⟩

/-- A cursor on the first token of a source has all of it before it. -/
theorem ofSource_eq_ok {source : String} {c : Cursor} (h : ofStream (.ofSource source) = .ok c) :
    c.pending = (TokenStream.ofSource source).upcoming ∧ c.Orderly ∧ c.depth = 0 := by
  unfold ofStream at h
  split at h
  · next hread =>
    cases h
    exact and_assoc.mp
      ⟨pending_of_read rfl (fun _ => TokenStream.not_end_of_upcoming) hread, rfl⟩
  · cases h

/-- A source with tokens has a first one, or ends at once. -/
theorem exists_of_scans {source : String} {ts : List Token} (h : Scans source ts) :
    ∃ c, ofStream (.ofSource source) = .ok c := by
  rw [scans_iff_upcoming] at h
  unfold ofStream TokenStream.read
  rw [h]
  cases ts with
  | nil => exact ⟨_, rfl⟩
  | cons t ts => exact ⟨_, rfl⟩

/-- The tokens of a source are those on the way from its first token to its end. -/
theorem scans_iff_walks {source : String} {ts : List Token} {c : Cursor}
    (h : ofStream (.ofSource source) = .ok c) :
    Scans source ts ↔ ∃ c', c.Walks ts c' ∧ c'.current.kind.isEnd = true := by
  obtain ⟨hpending, horderly, -⟩ := ofSource_eq_ok h
  rw [scans_iff_upcoming, walks_to_end_iff horderly, hpending]

end Cursor

end MiniPascal

/-
`Tokenization.lean` -- what reading a source gives.

`Tokenizes before text answers` says what the answers to be given for a text are, when
the text `before` stands in front of it: trivia, then the longest text that a pattern
matches, and so on, up to the end of the text or to the first place where there is no
token. Each answer carries the place where its own text begins, and that place is read
off everything before it (`Position.behind`). Nothing is skipped but trivia, since each
rule says how the text is put together from its parts.

Reading a source, one token after another until the end of the input or an error, gives
exactly these answers (`answers_iff_tokenizes`). One direction follows the scanner over
the text; the other one follows the rules, and at each of them the scanner has no choice.
-/
import MiniPascal.Proofs.Pattern
import MiniPascal.Proofs.Place

set_option autoImplicit false

namespace MiniPascal

open Lexeme

/-! ## Two accounts -/

/-- What reading from a stream gives, up to the end of the input or the first error. -/
inductive TokenStream.Answers : TokenStream → List Answer → Prop
  | finish {s s' t} : s.read = (.ok t, s') → t.kind.isEnd = true → Answers s [.ok t]
  | error {s s' e} : s.read = (.error e, s') → Answers s [.error e]
  | token {s s' t answers} :
      s.read = (.ok t, s') → t.kind.isEnd = false → Answers s' answers →
      Answers s (.ok t :: answers)

/-- What the answers for a text behind `before` are to be. -/
inductive Tokenizes : List Char → List Char → List Answer → Prop
  /-- Nothing but trivia is left: the end of the input. -/
  | finish {before gap} :
      Trivia gap → Tokenizes before gap [.ok ⟨.endOfInput, "", .behind (before ++ gap)⟩]
  /-- Behind trivia, the longest text of a token is that token. -/
  | token {before gap chars rest kind answers} :
      Trivia gap → Pattern chars (.ok kind) → Longest chars rest →
      Tokenizes (before ++ gap ++ chars) rest answers →
      Tokenizes before (gap ++ (chars ++ rest))
        (.ok ⟨kind, String.ofList chars, .behind (before ++ gap)⟩ :: answers)
  /-- The longest text is a number that is out of range. -/
  | outOfRange {before gap chars rest fault} :
      Trivia gap → Pattern chars (.error fault) → Longest chars rest →
      Tokenizes before (gap ++ (chars ++ rest)) [.error ⟨fault, .behind (before ++ gap)⟩]
  /-- A comment begins, and there is nothing that closes it. -/
  | unclosed {before gap rest} :
      Trivia gap → '}' ∉ rest →
      Tokenizes before (gap ++ '{' :: rest) [.error ⟨.unclosedComment, .behind (before ++ gap)⟩]
  /-- What stands here is no trivia, and no pattern matches it. -/
  | unrecognized {before gap c rest} :
      Trivia gap → isBlank c = false → c ≠ '\n' → c ≠ '{' →
      (∀ chars content, Pattern chars content → ¬ chars <+: c :: rest) →
      Tokenizes before (gap ++ c :: rest)
        [.error ⟨.unrecognizedCharacter c, .behind (before ++ gap)⟩]

theorem Lexeme.Trivia.append {gap gap' : List Char} (h : Trivia gap) (h' : Trivia gap') :
    Trivia (gap ++ gap') := by
  induction h with
  | nil => exact h'
  | blank hc _ ih => exact .blank hc ih
  | lineFeed _ ih => exact .lineFeed ih
  | comment hinside _ ih =>
    rw [List.cons_append, List.append_assoc, List.cons_append]
    exact .comment hinside ih

/-- Trivia in front of a text adds to the trivia in front of what comes next. -/
theorem Tokenizes.after_trivia {before gap rest : List Char} {answers : List Answer}
    (hgap : Trivia gap) (h : Tokenizes (before ++ gap) rest answers) :
    Tokenizes before (gap ++ rest) answers := by
  generalize hwhole : before ++ gap = whole at h
  cases h with
  | finish htrivia =>
    subst hwhole
    rw [List.append_assoc]
    exact .finish (hgap.append htrivia)
  | token htrivia hpattern hlongest hrest =>
    subst hwhole
    rw [← List.append_assoc gap, List.append_assoc before]
    refine .token (hgap.append htrivia) hpattern hlongest ?_
    rwa [← List.append_assoc before]
  | outOfRange htrivia hpattern hlongest =>
    subst hwhole
    rw [← List.append_assoc gap, List.append_assoc before]
    exact .outOfRange (hgap.append htrivia) hpattern hlongest
  | unclosed htrivia hnone =>
    subst hwhole
    rw [← List.append_assoc gap, List.append_assoc before]
    exact .unclosed (hgap.append htrivia) hnone
  | unrecognized htrivia hblank hfeed hbrace hnone =>
    subst hwhole
    rw [← List.append_assoc gap, List.append_assoc before]
    exact .unrecognized (hgap.append htrivia) hblank hfeed hbrace hnone

/-! ## Places and names -/

/-- Where an answer stands. -/
def Answer.place : Answer → Position
  | .ok t => t.position
  | .error e => e.position

section Places

variable {before text : List Char} {answers : List Answer}

/-- What comes before a text comes before all of its answers. -/
theorem Tokenizes.precedes (h : Tokenizes before text answers) {p : Position}
    (hp : p.Precedes (.behind before)) : ∀ answer ∈ answers, p.Precedes answer.place := by
  have hgap : ∀ {before} (more : List Char), p.Precedes (.behind before) →
      p.Precedes (.behind (before ++ more)) := by
    intro before more hp
    rw [← Position.advance_behind]
    exact hp.advance more
  induction h with
  | finish => exact List.forall_mem_singleton.mpr (hgap _ hp)
  | token _ _ _ _ ih => exact List.forall_mem_cons.mpr ⟨hgap _ hp, ih (hgap _ (hgap _ hp))⟩
  | outOfRange => exact List.forall_mem_singleton.mpr (hgap _ hp)
  | unclosed => exact List.forall_mem_singleton.mpr (hgap _ hp)
  | unrecognized => exact List.forall_mem_singleton.mpr (hgap _ hp)

/-- The answers stand one behind the other, and no two at the same place. -/
theorem Tokenizes.pairwise (h : Tokenizes before text answers) :
    (answers.map Answer.place).Pairwise Position.Precedes := by
  induction h with
  | finish => exact List.pairwise_singleton _ _
  | token _ hpattern _ hrest ih =>
    refine List.pairwise_cons.mpr ⟨List.forall_mem_map.mpr (hrest.precedes ?_), ih⟩
    obtain ⟨c, cs, rfl, -⟩ := hpattern.exists_cons
    rw [← Position.advance_behind (_ ++ _)]
    exact Position.precedes_advance _ (List.cons_ne_nil c cs)
  | outOfRange => exact List.pairwise_singleton _ _
  | unclosed => exact List.pairwise_singleton _ _
  | unrecognized => exact List.pairwise_singleton _ _

/-- A name is its own text. -/
theorem Tokenizes.lexeme_eq (h : Tokenizes before text answers) {t : Token} {name : String}
    (ht : .ok t ∈ answers) (hname : t.Names name) : t.lexeme = name := by
  unfold Token.Names at hname
  induction h with
  | finish =>
    cases List.mem_singleton.mp ht
    cases hname
  | token _ hpattern _ _ ih =>
    rcases List.mem_cons.mp ht with heq | ht
    · cases heq
      cases hname
      cases hpattern
      rfl
    · exact ih ht
  | outOfRange => cases List.mem_singleton.mp ht
  | unclosed => cases List.mem_singleton.mp ht
  | unrecognized => cases List.mem_singleton.mp ht

end Places

/-! ## The answers that the scanner has ready -/

namespace TokenStream

/-- The answers for a text that begins at `p`, up to the end or the first error. -/
def answersFrom (p : Position) (text : List Char) : List Answer :=
  untilError ⟨.endOfInput, "", (Cutting.ofText p text).stop⟩
    ((Cutting.ofText p text).lexemes.filterMap fun (lexeme, p) => lexeme.answer? p)

variable {p : Position} {c : Char} {cs chars rest : List Char}

theorem answersFrom_nil (p : Position) : answersFrom p [] = [.ok ⟨.endOfInput, "", p⟩] := by
  rw [answersFrom, Cutting.ofText]
  rfl

/-- The lexeme that is cut first says how the answers begin. -/
theorem answersFrom_cons (p : Position) (c : Char) (cs : List Char) :
    answersFrom p (c :: cs) = match (cut c cs).1.content with
      | .ok (.layout _) => answersFrom (p.advance (cut c cs).1.chars) (cut c cs).2
      | .ok kind => .ok ⟨kind, String.ofList (cut c cs).1.chars, p⟩ ::
          answersFrom (p.advance (cut c cs).1.chars) (cut c cs).2
      | .error fault => [.error ⟨fault, p⟩] := by
  rw [answersFrom, Cutting.ofText]
  dsimp only
  rw [List.filterMap_cons]
  dsimp only
  unfold Lexeme.answer? Lexeme.stop
  cases (cut c cs).1.content with
  | error fault => rfl
  | ok kind => cases kind <;> rfl

theorem answersFrom_layout {which : Layout}
    (h : cut c cs = (⟨.ok (.layout which), chars⟩, rest)) :
    answersFrom p (c :: cs) = answersFrom (p.advance chars) rest := by
  rw [answersFrom_cons, h]

theorem answersFrom_error {fault : LexicalFault} (h : cut c cs = (⟨.error fault, chars⟩, rest)) :
    answersFrom p (c :: cs) = [.error ⟨fault, p⟩] := by
  rw [answersFrom_cons, h]

theorem answersFrom_token {kind : Kind} (h : cut c cs = (⟨.ok kind, chars⟩, rest))
    (hpattern : Pattern chars (.ok kind)) :
    answersFrom p (c :: cs) =
      .ok ⟨kind, String.ofList chars, p⟩ :: answersFrom (p.advance chars) rest := by
  rw [answersFrom_cons, h]
  -- no pattern is for layout
  cases hpattern <;> rfl

/-- Blanks can be skipped one by one, although the scanner takes a whole run. -/
theorem answersFrom_blank (hc : isBlank c = true) :
    answersFrom p (c :: cs) = answersFrom (p.step c) cs := by
  have hcut : ∀ c cs, isBlank c = true → cut c cs =
      (⟨.ok (.layout .blanks), c :: cs.takeWhile isBlank⟩, cs.dropWhile isBlank) := by
    intro c cs hc
    rw [cut, if_pos hc]
  rw [answersFrom_layout (hcut c cs hc), Position.advance_cons]
  cases cs with
  | nil => rfl
  | cons d ds =>
    by_cases hd : isBlank d = true
    · rw [answersFrom_layout (hcut d ds hd), List.takeWhile_cons_of_pos hd,
        List.dropWhile_cons_of_pos hd]
    · rw [List.takeWhile_cons_of_neg hd, List.dropWhile_cons_of_neg hd, Position.advance_nil]

/-- Trivia has no answers. -/
theorem answersFrom_trivia {gap : List Char} (h : Trivia gap) (p : Position) (rest : List Char) :
    answersFrom p (gap ++ rest) = answersFrom (p.advance gap) rest := by
  induction h generalizing p with
  | nil => rfl
  | blank hc _ ih => rw [List.cons_append, answersFrom_blank hc, ih, Position.advance_cons]
  | @lineFeed more _ ih =>
    have hcut : cut '\n' (more ++ rest) = (⟨.ok (.layout .lineFeed), ['\n']⟩, more ++ rest) := rfl
    rw [List.cons_append, answersFrom_layout hcut, ih, Position.advance_cons,
      Position.advance_cons, Position.advance_nil]
  | @comment inside more hinside _ ih =>
    have hall : ∀ c ∈ inside, (c != '}') = true := by
      rintro c hc
      rw [bne_iff_ne]
      rintro rfl
      exact hinside hc
    have hstop : StopsAt (· != '}') ('}' :: (more ++ rest)) := stopsAt_cons rfl
    have hcut : cut '{' (inside ++ '}' :: (more ++ rest)) =
        (⟨.ok (.layout .comment), '{' :: inside ++ ['}']⟩, more ++ rest) := by
      change cutComment _ = _
      rw [cutComment, hstop.dropWhile_eq hall, hstop.takeWhile_eq hall]
    rw [List.cons_append, List.append_assoc, List.cons_append, answersFrom_layout hcut, ih,
      ← Position.advance_append, List.cons_append, List.cons_append, List.append_assoc]
    rfl

/-! ## Both directions -/

/-- The scanner follows the rules. -/
theorem tokenizes_answersFrom (before text : List Char) :
    Tokenizes before text (answersFrom (.behind before) text) := by
  induction hlength : text.length using Nat.strongRecOn generalizing before text with
  | ind n ih =>
    cases text with
    | nil =>
      rw [answersFrom_nil]
      have hfinish : Tokenizes before [] _ := .finish .nil
      rwa [List.append_nil] at hfinish
    | cons c cs =>
      have hless := hlength ▸ length_cut_lt c cs
      have happend := cut_append c cs
      have houtcome := outcome_cut c cs
      cases hcut : cut c cs with
      | mk lexeme rest =>
        rw [hcut] at hless happend houtcome
        cases houtcome with
        | @layout which chars _ htrivia =>
          have hrest := ih _ hless (before ++ chars) rest rfl
          rw [answersFrom_layout hcut, Position.advance_behind, ← happend]
          exact hrest.after_trivia htrivia
        | @lexeme content chars _ hpattern =>
          rw [← happend]
          cases content with
          | error fault =>
            have herror : Tokenizes before ([] ++ (chars ++ rest)) _ :=
              .outOfRange .nil hpattern (longest_of_cut hcut)
            rw [happend, answersFrom_error hcut, ← happend]
            rwa [List.append_nil] at herror
          | ok kind =>
            have hrest := ih _ hless (before ++ [] ++ chars) rest rfl
            have htoken : Tokenizes before ([] ++ (chars ++ rest)) _ :=
              .token .nil hpattern (longest_of_cut hcut) hrest
            rw [happend, answersFrom_token hcut hpattern, Position.advance_behind, ← happend]
            rwa [List.append_nil] at htoken
        | unclosed hbrace hnone =>
          have herror : Tokenizes before ([] ++ '{' :: cs) _ := .unclosed .nil hnone
          rw [answersFrom_error hcut, hbrace]
          rwa [List.append_nil] at herror
        | nothing hblank hfeed hbrace hnone =>
          have herror : Tokenizes before ([] ++ c :: cs) _ :=
            .unrecognized .nil hblank hfeed hbrace hnone
          rw [answersFrom_error hcut]
          rwa [List.append_nil] at herror

/-- The rules leave the scanner no choice. -/
theorem eq_answersFrom {before text : List Char} {answers : List Answer}
    (h : Tokenizes before text answers) : answers = answersFrom (.behind before) text := by
  induction h with
  | @finish before gap hgap =>
    have hskip := answersFrom_trivia hgap (.behind before) []
    rw [List.append_nil] at hskip
    rw [hskip, answersFrom_nil, Position.advance_behind]
  | @token before gap chars rest kind answers hgap hpattern hlongest _ ih =>
    obtain ⟨c, cs, rfl, -⟩ := hpattern.exists_cons
    have hcut : cut c (cs ++ rest) = (⟨.ok kind, c :: cs⟩, rest) :=
      hpattern.cut_of_longest hlongest rfl
    rw [answersFrom_trivia hgap, ih, Position.advance_behind]
    rw [List.cons_append, answersFrom_token hcut hpattern, Position.advance_behind]
  | @outOfRange before gap chars rest fault hgap hpattern hlongest =>
    obtain ⟨c, cs, rfl, -⟩ := hpattern.exists_cons
    have hcut : cut c (cs ++ rest) = (⟨.error fault, c :: cs⟩, rest) :=
      hpattern.cut_of_longest hlongest rfl
    rw [answersFrom_trivia hgap, Position.advance_behind]
    rw [List.cons_append, answersFrom_error hcut]
  | @unclosed before gap rest hgap hnone =>
    have hcut : cut '{' rest = (⟨.error .unclosedComment, '{' :: rest⟩, []) := by
      have hdrop : rest.dropWhile (· != '}') = [] := by
        refine List.dropWhile_eq_nil_iff.mpr fun c hc => ?_
        rw [bne_iff_ne]
        rintro rfl
        exact hnone hc
      change cutComment rest = _
      rw [cutComment, hdrop]
    rw [answersFrom_trivia hgap, Position.advance_behind, answersFrom_error hcut]
  | @unrecognized before gap c rest hgap hblank hfeed hbrace hnone =>
    have hcut : ∃ chars rest', cut c rest =
        (⟨.error (.unrecognizedCharacter c), chars⟩, rest') := by
      have happend := cut_append c rest
      have hne := cut_ne_nil c rest
      have houtcome := outcome_cut c rest
      generalize cut c rest = piece at *
      cases houtcome with
      | nothing => exact ⟨_, _, rfl⟩
      | unclosed hc _ => exact absurd hc hbrace
      | @lexeme content chars after hpattern =>
        exact absurd ⟨after, happend⟩ (hnone chars content hpattern)
      | @layout which chars after htrivia =>
        cases htrivia with
        | nil => exact absurd rfl hne
        | blank hc _ =>
          obtain rfl := (List.cons.inj happend).1
          rw [hc] at hblank
          cases hblank
        | lineFeed _ => exact absurd (List.cons.inj happend).1.symm hfeed
        | comment _ _ => exact absurd (List.cons.inj happend).1.symm hbrace
    obtain ⟨chars, rest', hcut⟩ := hcut
    rw [answersFrom_trivia hgap, Position.advance_behind, answersFrom_error hcut]

/-! ## Reading -/

/-- Reading gives the answers that are ready, up to the first error. -/
theorem answers_iff {upcoming : List Answer} {last : Token} {finished : Bool}
    {answers : List Answer} (hlast : last.kind.isEnd = true)
    (hnoend : ∀ t, .ok t ∈ upcoming → t.kind.isEnd = false) :
    (TokenStream.mk upcoming last finished).Answers answers ↔
      answers = untilError last upcoming := by
  induction upcoming generalizing answers with
  | nil =>
    constructor
    · intro h
      cases h with
      | finish hread _ =>
        cases hread
        rfl
      | error hread => cases hread
      | token hread hend _ =>
        cases hread
        rw [hlast] at hend
        cases hend
    · rintro rfl
      exact .finish rfl hlast
  | cons answer rest ih =>
    cases answer with
    | error e =>
      constructor
      · intro h
        cases h with
        | finish hread _ => cases hread
        | error hread =>
          cases hread
          rfl
        | token hread _ _ => cases hread
      · rintro rfl
        exact .error rfl
    | ok t =>
      have ht := hnoend t List.mem_cons_self
      have hrest : ∀ {answers}, (TokenStream.mk rest last finished).Answers answers ↔
          answers = untilError last rest :=
        ih fun u hu => hnoend u (List.mem_cons_of_mem _ hu)
      constructor
      · intro h
        cases h with
        | finish hread hend =>
          cases hread
          rw [ht] at hend
          cases hend
        | error hread => cases hread
        | token hread _ hmore =>
          cases hread
          rw [hrest.mp hmore]
          rfl
      · rintro rfl
        exact .token rfl ht (hrest.mpr rfl)

theorem answers_ofSource_iff {source : String} {answers : List Answer} :
    (ofSource source).Answers answers ↔ answers = answersFrom .start source.toList :=
  answers_iff rfl fun _ => not_end_of_upcoming

/-- What a stream hands out tokenizes its source. -/
theorem tokenizes_drain (source : String) :
    Tokenizes [] source.toList (ofSource source).drain := by
  have hdrain : (ofSource source).drain = answersFrom .start source.toList := drain_eq _ _
  rw [hdrain]
  exact tokenizes_answersFrom [] source.toList

end TokenStream

/-- **Reading is tokenizing.** Every source can be read up to the end of the input or to
a first error, and the answers are those that the rules give for its text: the tokens are
longest matches with nothing but trivia between them, of the kinds that their patterns
say, and every answer stands at the line and the column of its own beginning. -/
theorem answers_iff_tokenizes (source : String) :
    (∃ answers, (TokenStream.ofSource source).Answers answers) ∧
      ∀ answers, (TokenStream.ofSource source).Answers answers ↔
        Tokenizes [] source.toList answers := by
  refine ⟨⟨_, TokenStream.answers_ofSource_iff.mpr rfl⟩, fun answers => ?_⟩
  rw [TokenStream.answers_ofSource_iff]
  constructor
  · rintro rfl
    exact TokenStream.tokenizes_answersFrom [] source.toList
  · exact TokenStream.eq_answersFrom

end MiniPascal

/-
`Relayout.lean` -- the same program in another layout.

A source is laid out anew by writing other trivia where trivia stands, by putting trivia
where there was none, and by writing reserved words in another case (`Relaid`). It keeps
the kinds of its tokens, and so, since no stage looks at places, it keeps its meaning
(`same_meaning_of_relaid`).

What has to be shown is that the tokens stay apart. A token ends where no pattern matches
further, and that depends on the text behind it, which has changed. The two texts behind
it are compared character by character: they agree, up to the case of letters, until the
new one stops being text of tokens (`Front`). A longer match in the new text would lie in
that common part, and would be a match in the old text as well.
-/
import Mathlib.Data.List.Forall2
import MiniPascal.Proofs.Assigning
import MiniPascal.Proofs.Blind
import MiniPascal.Proofs.Tokenization

set_option autoImplicit false

namespace MiniPascal

open Lexeme

/-! ## Texts without errors -/

/-- The text behind `before` is cut into the tokens `ts`, and into nothing else but
trivia. -/
inductive Lexes : List Char → List Char → List Token → Prop
  | finish {before gap} : Trivia gap → Lexes before gap []
  | token {before gap chars rest kind ts} :
      Trivia gap → Pattern chars (.ok kind) → Longest chars rest →
      Lexes (before ++ gap ++ chars) rest ts →
      Lexes before (gap ++ (chars ++ rest))
        (⟨kind, String.ofList chars, .behind (before ++ gap)⟩ :: ts)

theorem Lexes.tokenizes {before text : List Char} {ts : List Token} (h : Lexes before text ts) :
    ∃ eof : Token, Tokenizes before text (ts.map .ok ++ [.ok eof]) ∧ eof.kind = .endOfInput := by
  induction h with
  | finish hgap => exact ⟨_, .finish hgap, rfl⟩
  | token hgap hpattern hlongest _ ih =>
    obtain ⟨eof, hrest, heof⟩ := ih
    exact ⟨eof, .token hgap hpattern hlongest hrest, heof⟩

theorem lexes_of_tokenizes {before text : List Char} {ts : List Token} {eof : Token}
    (h : Tokenizes before text (ts.map .ok ++ [.ok eof])) (heof : eof.kind = .endOfInput) :
    Lexes before text ts := by
  generalize hanswers : ts.map Except.ok ++ [Except.ok eof] = answers at h
  induction h generalizing ts with
  | finish hgap =>
    cases ts with
    | nil => exact .finish hgap
    | cons t ts => exact absurd (List.cons.inj hanswers).2 (by simp)
  | token hgap hpattern hlongest _ ih =>
    cases ts with
    | nil =>
      -- the only answer would be the end of the input, which no pattern matches
      cases (List.cons.inj hanswers).1
      cases heof
      cases hpattern
    | cons t ts =>
      obtain ⟨hfirst, hrest⟩ := List.cons.inj hanswers
      cases hfirst
      exact .token hgap hpattern hlongest (ih hrest)
  | _ => cases ts <;> cases (List.cons.inj hanswers).1

/-- The tokens of a source are those that its text is cut into. -/
theorem scans_iff_lexes {source : String} {ts : List Token} :
    Scans source ts ↔ Lexes [] source.toList ts := by
  have hdrain := TokenStream.tokenizes_drain source
  constructor
  · rintro ⟨eof, heq, heof⟩
    rw [heq] at hdrain
    exact lexes_of_tokenizes hdrain heof
  · intro h
    obtain ⟨eof, htokens, heof⟩ := h.tokenizes
    -- there is only one sequence of answers for a text
    have heq := TokenStream.eq_answersFrom hdrain
    rw [← TokenStream.eq_answersFrom htokens] at heq
    exact ⟨eof, heq, heof⟩

/-! ## The text of tokens -/

namespace Lexeme

/-- The characters that patterns match; trivia does not begin with one. -/
def isTokenChar (c : Char) : Bool := canBegin c || c == '='

theorem isTokenChar_of_canBegin {c : Char} (h : canBegin c = true) : isTokenChar c = true := by
  rw [isTokenChar, h, Bool.true_or]

theorem isTokenChar_of_wordChar {c : Char} (h : isWordChar c = true) : isTokenChar c = true := by
  rw [isWordChar, Bool.or_eq_true] at h
  rcases h with h | h
  · exact isTokenChar_of_canBegin (canBegin_of_letter h)
  · exact isTokenChar_of_canBegin (canBegin_of_digit h)

theorem Digits.forall_isTokenChar {digits : List Char} (h : Digits digits) :
    ∀ c ∈ digits, isTokenChar c = true :=
  fun c hc => isTokenChar_of_canBegin (canBegin_of_digit (h.2 c hc))

/-- The marks are written without letters. -/
theorem spelling_of_mark {which : Terminal} (h : which ∉ Terminal.words) :
    ∀ c ∈ which.spelling.toList, isTokenChar c = true ∧ isLetter c = false := by
  have hmarks : which.spelling.toList.all (fun c => isTokenChar c && !isLetter c) = true := by
    cases which with
    | program | var | procedure | integer | real | beginBlock | endBlock | div =>
      exact absurd (by decide) h
    | _ => rfl
  intro c hc
  have hmark := List.all_eq_true.mp hmarks c hc
  rwa [Bool.and_eq_true, Bool.not_eq_true'] at hmark

variable {chars chars' rest rest' : List Char} {content : Except LexicalFault Kind}

theorem Pattern.forall_isTokenChar (h : Pattern chars content) :
    ∀ c ∈ chars, isTokenChar c = true := by
  cases h with
  | real hwhole hfraction =>
    rw [List.forall_mem_append, List.forall_mem_cons]
    exact ⟨hwhole.forall_isTokenChar, rfl, hfraction.forall_isTokenChar⟩
  | integer hdigits _ => exact hdigits.forall_isTokenChar
  | outOfRange hdigits _ => exact hdigits.forall_isTokenChar
  | reserved hwhich heq =>
    have hletters := isLetter_of_reserved hwhich heq
    exact fun c hc => isTokenChar_of_canBegin (canBegin_of_letter (hletters c hc))
  | identifier hc hcs _ =>
    rw [List.forall_mem_cons]
    exact ⟨isTokenChar_of_canBegin (canBegin_of_letter hc),
      fun d hd => isTokenChar_of_wordChar (hcs d hd)⟩
  | mark hwhich => exact fun c hc => (spelling_of_mark hwhich c hc).1

theorem Trivia.not_isTokenChar {c : Char} {cs : List Char} (h : Trivia (c :: cs)) :
    isTokenChar c = false := by
  have hequals : c ≠ '=' := by
    rintro rfl
    cases h with
    | blank hblank _ => cases hblank
  rw [isTokenChar, h.not_canBegin, beq_eq_false_iff_ne.mpr hequals]
  rfl

/-- Text of tokens stops where trivia begins. -/
theorem Trivia.stopsAt {gap : List Char} (h : Trivia gap) (hne : gap ≠ []) (rest : List Char) :
    StopsAt isTokenChar (gap ++ rest) := by
  cases gap with
  | nil => exact absurd rfl hne
  | cons c cs => exact stopsAt_cons h.not_isTokenChar

/-! ## Texts that are alike -/

/-- The same character, or both letters. -/
def Alike (c d : Char) : Prop := c = d ∨ (isLetter c = true ∧ isLetter d = true)

theorem Alike.letter {c d : Char} (h : Alike c d) (hc : isLetter c = true) : isLetter d = true := by
  rcases h with rfl | ⟨-, hd⟩
  · exact hc
  · exact hd

theorem Alike.wordChar {c d : Char} (h : Alike c d) (hc : isWordChar c = true) :
    isWordChar d = true := by
  rcases h with rfl | ⟨-, hd⟩
  · exact hc
  · exact isWordChar_of_letter hd

/-- What a pattern matches is a word, or else it has no letters. -/
theorem Pattern.word_or_plain (h : Pattern chars content) :
    (∃ c cs, chars = c :: cs ∧ isLetter c = true ∧ ∀ d ∈ cs, isWordChar d = true) ∨
      ∀ c ∈ chars, isLetter c = false := by
  have hplain : ∀ {digits}, Digits digits → ∀ c ∈ digits, isLetter c = false :=
    fun hdigits c hc => isLetter_of_digit (hdigits.2 c hc)
  cases h with
  | real hwhole hfraction =>
    refine .inr ?_
    rw [List.forall_mem_append, List.forall_mem_cons]
    exact ⟨hplain hwhole, rfl, hplain hfraction⟩
  | integer hdigits _ => exact .inr (hplain hdigits)
  | outOfRange hdigits _ => exact .inr (hplain hdigits)
  | reserved hwhich heq => exact .inl (exists_cons_of_reserved hwhich heq)
  | identifier hc hcs _ => exact .inl ⟨_, _, rfl, hc, hcs⟩
  | mark hwhich => exact .inr fun c hc => (spelling_of_mark hwhich c hc).2

theorem forall_isWordChar_of_alike (h : List.Forall₂ Alike chars chars')
    (hchars : ∀ c ∈ chars, isWordChar c = true) : ∀ c ∈ chars', isWordChar c = true := by
  induction h with
  | nil => exact nofun
  | cons hfirst _ ih =>
    rw [List.forall_mem_cons] at hchars ⊢
    exact ⟨hfirst.wordChar hchars.1, ih hchars.2⟩

theorem eq_of_alike (h : List.Forall₂ Alike chars chars')
    (hchars : ∀ c ∈ chars, isLetter c = false) : chars = chars' := by
  induction h with
  | nil => rfl
  | cons hfirst _ ih =>
    rw [List.forall_mem_cons] at hchars
    rcases hfirst with rfl | ⟨hletter, -⟩
    · rw [ih hchars.2]
    · rw [hchars.1] at hletter
      cases hletter

/-- Patterns do not tell letters apart, except by what they make of them. -/
theorem Pattern.of_alike (h : Pattern chars content) (halike : List.Forall₂ Alike chars chars') :
    ∃ content', Pattern chars' content' := by
  rcases h.word_or_plain with ⟨c, cs, rfl, hc, hcs⟩ | hplain
  · -- a word stays one, though it may become reserved or stop being so
    cases halike with
    | cons hfirst hothers =>
      exact ⟨_, pattern_wordKind (hfirst.letter hc) (forall_isWordChar_of_alike hothers hcs)⟩
  · obtain rfl := eq_of_alike halike hplain
    exact ⟨content, h⟩

theorem alike_of_letters (hchars : ∀ c ∈ chars, isLetter c = true)
    (hchars' : ∀ c ∈ chars', isLetter c = true) (hlength : chars.length = chars'.length) :
    List.Forall₂ Alike chars chars' := by
  induction chars generalizing chars' with
  | nil =>
    rw [List.eq_nil_of_length_eq_zero hlength.symm]
    exact .nil
  | cons c cs ih =>
    cases chars' with
    | nil => cases hlength
    | cons c' cs' =>
      rw [List.forall_mem_cons] at hchars hchars'
      exact .cons (.inr ⟨hchars.1, hchars'.1⟩)
        (ih hchars.2 hchars'.2 (Nat.succ.inj hlength))

/-! ## Longest matches -/

/-- Two texts that are alike until the second one stops being text of tokens. -/
inductive Front : List Char → List Char → Prop
  | apart {text text'} : StopsAt isTokenChar text' → Front text text'
  | step {c c' text text'} : Alike c' c → Front text text' → Front (c :: text) (c' :: text')

theorem Front.append (h : Front rest rest') (halike : List.Forall₂ Alike chars' chars) :
    Front (chars ++ rest) (chars' ++ rest') := by
  induction halike with
  | nil => exact h
  | cons hfirst _ ih => exact .step hfirst ih

/-- What stands at the beginning of the second text stands there in the first. -/
theorem Front.exists_piece {text text' piece' : List Char} (h : Front text text')
    (hpiece : ∀ c ∈ piece', isTokenChar c = true) (hbegins : piece' <+: text') :
    ∃ piece, piece <+: text ∧ List.Forall₂ Alike piece' piece := by
  induction h generalizing piece' with
  | apart hstop =>
    cases piece' with
    | nil => exact ⟨[], List.nil_prefix, .nil⟩
    | cons c cs =>
      -- the text stops at its first character, which is one of a token
      obtain ⟨more, rfl⟩ := hbegins
      have hc := hpiece c List.mem_cons_self
      rw [hstop c rfl] at hc
      cases hc
  | step halike _ ih =>
    cases piece' with
    | nil => exact ⟨[], List.nil_prefix, .nil⟩
    | cons c cs =>
      obtain ⟨rfl, hcs⟩ := List.cons_prefix_cons.mp hbegins
      rw [List.forall_mem_cons] at hpiece
      obtain ⟨piece, hpiece, hsame⟩ := ih hpiece.2 hcs
      exact ⟨_ :: piece, List.cons_prefix_cons.mpr ⟨rfl, hpiece⟩, .cons halike hsame⟩

/-- A longest match stays one in a text that begins alike. -/
theorem Longest.of_front (h : Longest chars rest) (halike : List.Forall₂ Alike chars' chars)
    (hfront : Front rest rest') : Longest chars' rest' := by
  intro longer' content' hpattern' hbegins'
  -- carry the longer match over into the first text, where there is none
  obtain ⟨longer, hbegins, hsame⟩ :=
    (hfront.append halike).exists_piece hpattern'.forall_isTokenChar hbegins'
  obtain ⟨content, hpattern⟩ := hpattern'.of_alike hsame
  have hlength := h longer content hpattern hbegins
  rwa [← hsame.length_eq, ← halike.length_eq] at hlength

theorem alike_refl (chars : List Char) : List.Forall₂ Alike chars chars :=
  List.forall₂_same.mpr fun _ _ => .inl rfl

/-- A match is a longest one if no text of tokens stands behind it. -/
theorem Pattern.longest_of_stopsAt (h : Pattern chars content)
    (hrest : StopsAt isTokenChar rest) : Longest chars rest := by
  obtain ⟨c, cs, rfl, -⟩ := h.exists_cons
  have halone : Longest (c :: cs) [] := longest_of_cut h.cut_alone
  exact halone.of_front (alike_refl _) (.apart hrest)

end Lexeme

/-! ## Laying out anew -/

/-- The text of a token as it may be written instead: as it is, or for a reserved word in
any letter case. -/
inductive Respelled : List Char → List Char → Prop
  | same (chars) : Respelled chars chars
  | reserved {chars chars' which} :
      which ∈ Terminal.words → chars.map Char.toUpper = which.spelling.toList →
      chars'.map Char.toUpper = which.spelling.toList → Respelled chars chars'

/-- The second text is the first one laid out anew. The tokens of the first text, each a
longest match, are written in the same order; the trivia in front of a token and at the
end is any other trivia, and there is some where there was some. -/
inductive Relaid : List Char → List Char → Prop
  | finish {gap gap'} :
      Trivia gap → Trivia gap' → (gap ≠ [] → gap' ≠ []) → Relaid gap gap'
  | token {gap gap' chars chars' rest rest' kind} :
      Trivia gap → Trivia gap' → (gap ≠ [] → gap' ≠ []) →
      Pattern chars (.ok kind) → Longest chars rest → Respelled chars chars' →
      Relaid rest rest' → Relaid (gap ++ (chars ++ rest)) (gap' ++ (chars' ++ rest'))

variable {chars chars' text text' : List Char}

theorem Respelled.alike (h : Respelled chars chars') : List.Forall₂ Alike chars' chars := by
  cases h with
  | same => exact alike_refl chars
  | reserved hwhich heq heq' =>
    have hlength := congrArg List.length (heq'.trans heq.symm)
    rw [List.length_map, List.length_map] at hlength
    exact alike_of_letters (isLetter_of_reserved hwhich heq') (isLetter_of_reserved hwhich heq)
      hlength

theorem Respelled.pattern {kind : Kind} (h : Respelled chars chars')
    (hpattern : Pattern chars (.ok kind)) : Pattern chars' (.ok kind) := by
  cases h with
  | same => exact hpattern
  | reserved hwhich heq heq' =>
    rw [hpattern.unique (.reserved hwhich heq)]
    exact .reserved hwhich heq'

theorem Relaid.front (h : Relaid text text') : Front text text' := by
  induction h with
  | @finish gap gap' _ hgap' _ =>
    by_cases hempty : gap' = []
    · rw [hempty]
      exact .apart nofun
    · have hstop := hgap'.stopsAt hempty []
      rw [List.append_nil] at hstop
      exact .apart hstop
  | @token gap gap' chars chars' rest rest' kind _ hgap' hkeep _ _ hspelled _ ih =>
    by_cases hempty : gap' = []
    · -- there was no trivia in front of the token either
      have hempty' : gap = [] := by
        by_contra hne
        exact hkeep hne hempty
      rw [hempty, hempty', List.nil_append, List.nil_append]
      exact ih.append hspelled.alike
    · exact .apart (hgap'.stopsAt hempty _)

/-- A text laid out anew is cut into tokens of the same kinds, whatever stands in front of
the two. -/
theorem Relaid.lexes (h : Relaid text text') (before before' : List Char) :
    ∃ ts ts', Lexes before text ts ∧ Lexes before' text' ts' ∧
      ts.map Token.kind = ts'.map Token.kind := by
  induction h generalizing before before' with
  | finish hgap hgap' _ => exact ⟨[], [], .finish hgap, .finish hgap', rfl⟩
  | @token gap gap' chars chars' rest rest' kind hgap hgap' _ hpattern hlongest hspelled hrest ih =>
    obtain ⟨ts, ts', hts, hts', hkinds⟩ := ih (before ++ gap ++ chars) (before' ++ gap' ++ chars')
    have hlongest' : Longest chars' rest' := hlongest.of_front hspelled.alike hrest.front
    refine ⟨_, _, .token hgap hpattern hlongest hts,
      .token hgap' (hspelled.pattern hpattern) hlongest' hts', ?_⟩
    rw [List.map_cons, List.map_cons, hkinds]

/-- A text without errors may be laid out as it is. -/
theorem Lexes.relaid_self {before : List Char} {ts : List Token} (h : Lexes before text ts) :
    Relaid text text := by
  induction h with
  | finish hgap => exact .finish hgap hgap id
  | token hgap hpattern hlongest _ ih => exact .token hgap hgap id hpattern hlongest (.same _) ih

theorem Relaid.scans {source source' : String} (h : Relaid source.toList source'.toList) :
    ∃ ts ts', Scans source ts ∧ Scans source' ts' ∧ ts.map Token.kind = ts'.map Token.kind := by
  obtain ⟨ts, ts', hts, hts', hkinds⟩ := h.lexes [] []
  exact ⟨ts, ts', scans_iff_lexes.mpr hts, scans_iff_lexes.mpr hts', hkinds⟩

/-! ## The stages on the kinds alone

Up to places, each stage is a function of the stage before it, and the first one is a
function of the kinds. -/

theorem unplaced_ofSource {source : String} {ts : List Token} (h : Scans source ts) :
    (TokenStream.ofSource source).unplaced =
      ⟨(ts.map Token.kind).map fun kind => .ok ⟨kind, "", .start⟩,
        ⟨.endOfInput, "", .start⟩, false⟩ := by
  rw [TokenStream.unplaced, scans_iff_upcoming.mp h, List.map_map, List.map_map]
  rfl

theorem ofStream_unplaced (s : TokenStream) :
    Cursor.ofStream s.unplaced = unplacedResult Cursor.unplaced (Cursor.ofStream s) := by
  rw [Cursor.ofStream, Cursor.ofStream, TokenStream.read_unplaced]
  rcases s.read with ⟨answer, rest⟩
  cases answer with
  | error e => rfl
  | ok t =>
    have hnote : Cursor.note #[] t.unplaced = (Cursor.note #[] t).map Token.unplaced := by
      rw [← Cursor.note_unplaced, Array.map_empty]
    dsimp only [unplacedResult]
    rw [hnote]
    rfl

namespace Traced

/-- The outcome of the rule for programs on a stream of tokens. -/
def ofStream (s : TokenStream) : Except (Error Fault) Program :=
  match Cursor.ofStream s with
  | .ok c => (ofCursor c).result
  | .error e => .error (e.map ReadingFault.toFault)

theorem ofCursor_unplaced (c : Cursor) :
    (ofCursor c.unplaced).result = unplacedResult Program.unplaced (ofCursor c).result := by
  rw [ofCursor, ofCursor, Blind.wholeProgram c]
  cases Rule.wholeProgram c <;> rfl

theorem ofStream_unplaced (s : TokenStream) :
    ofStream s.unplaced = unplacedResult Program.unplaced (ofStream s) := by
  rw [ofStream, ofStream, MiniPascal.ofStream_unplaced]
  cases Cursor.ofStream s with
  | error e => rfl
  | ok c => exact ofCursor_unplaced c

theorem resolve_unplaced (p : Program) :
    (resolve p.unplaced).result = unplacedResult id (resolve p).result := by
  have hblind : Resolve.program p.unplaced .fresh = _ := Resolve.blind_program p .fresh
  rw [resolve, resolve, hblind]
  cases Resolve.program p .fresh <;> rfl

theorem execute_unplaced (p : Program) :
    (execute p.unplaced).result = unplacedResult id (execute p).result := by
  have hblind : Execute.program p.unplaced .fresh = _ := Execute.blind_program p .fresh
  rw [execute, execute, hblind]
  cases Execute.program p .fresh <;> rfl

end Traced

theorem parse_unplaced (source : String) :
    unplacedResult Program.unplaced (parse source) =
      Traced.ofStream (TokenStream.ofSource source).unplaced := by
  rw [Traced.ofStream_unplaced, parse, Traced.parse, Traced.ofStream]
  cases Cursor.ofStream (.ofSource source) <;> rfl

/-- Checking, seen without places, depends on the program without places. -/
theorem check_unplaced (source : String) :
    unplacedResult Program.unplaced (check source) =
      (unplacedResult Program.unplaced (parse source)).bind fun p =>
        (Traced.resolve p).result.map fun _ => p := by
  rw [check, parse, Traced.check, Traced.result_bind]
  cases (Traced.parse source).result with
  | error e => rfl
  | ok p =>
    dsimp only [unplacedResult, Except.bind]
    rw [Traced.result_bind, Traced.resolve_unplaced]
    cases (Traced.resolve p).result <;> rfl

/-- Running, seen without places, depends on the checked program without places. -/
theorem run_unplaced (source : String) :
    unplacedResult id (run source) =
      (unplacedResult Program.unplaced (check source)).bind fun p =>
        (Traced.execute p).result := by
  rw [run, check, Traced.run, Traced.result_bind]
  cases (Traced.check source).result with
  | error e => rfl
  | ok p => exact (Traced.execute_unplaced p).symm

/-- **Layout does not change meaning.** The sources that can be laid out anew are those without
lexical errors. Take such a source and lay it out anew: write other blanks, line feeds and
comments between its tokens, more of them or some where there were none, and reserved words in
other cases. Both sources have tokens of the same kinds. Both are parsed, checked and run, or
neither is, and if they are refused or stop then for the same fault; trees and errors are equal
up to places, and the final stores are equal. -/
theorem same_meaning_of_relaid :
    (∀ source : String, Relaid source.toList source.toList ↔ ∃ ts, Scans source ts) ∧
    ∀ source source' : String, Relaid source.toList source'.toList →
      (∃ ts ts', Scans source ts ∧ Scans source' ts' ∧ ts.map Token.kind = ts'.map Token.kind) ∧
      unplacedResult Program.unplaced (parse source) =
        unplacedResult Program.unplaced (parse source') ∧
      unplacedResult Program.unplaced (check source) =
        unplacedResult Program.unplaced (check source') ∧
      unplacedResult id (run source) = unplacedResult id (run source') := by
  refine ⟨fun source => ⟨fun h => ?_, fun ⟨ts, hts⟩ => (scans_iff_lexes.mp hts).relaid_self⟩,
    fun source source' h => ?_⟩
  · obtain ⟨ts, -, hts, -, -⟩ := h.scans
    exact ⟨ts, hts⟩
  obtain ⟨ts, ts', hts, hts', hkinds⟩ := h.scans
  have hparse : unplacedResult Program.unplaced (parse source) =
      unplacedResult Program.unplaced (parse source') := by
    rw [parse_unplaced, parse_unplaced, unplaced_ofSource hts, unplaced_ofSource hts', hkinds]
  have hcheck : unplacedResult Program.unplaced (check source) =
      unplacedResult Program.unplaced (check source') := by
    rw [check_unplaced, check_unplaced, hparse]
  refine ⟨⟨ts, ts', hts, hts', hkinds⟩, hparse, hcheck, ?_⟩
  rw [run_unplaced, run_unplaced, hcheck]

/-- The smallest program, and the same one over two lines, with a comment and with reserved
words in other cases. -/
theorem same_meaning_of_relaid_smallest :
    Relaid "PROGRAM p;BEGIN END.".toList "{one} program p;\nBegin end. ".toList ∧
      unplacedResult id (run "PROGRAM p;BEGIN END.") =
        unplacedResult id (run "{one} program p;\nBegin end. ") := by
  have hblank : Trivia [' '] := .blank rfl .nil
  have hcomment : Trivia ('{' :: ("one".toList ++ '}' :: [' '])) := .comment (by decide) hblank
  have hword : ∀ which ∈ Terminal.words, ∀ chars : List Char,
      chars.map Char.toUpper = which.spelling.toList → Pattern chars (.ok (.terminal which)) :=
    fun _ hwhich _ => .reserved hwhich
  have hmark : ∀ which ∉ Terminal.words,
      Pattern which.spelling.toList (.ok (.terminal which)) := fun _ => .mark
  have hcase : ∀ which ∈ Terminal.words, ∀ chars chars' : List Char,
      chars.map Char.toUpper = which.spelling.toList →
      chars'.map Char.toUpper = which.spelling.toList → Respelled chars chars' :=
    fun _ hwhich _ _ => .reserved hwhich
  have hlongest : ∀ c cs content chars rest, cut c cs = (⟨content, chars⟩, rest) →
      Longest chars rest := fun _ _ _ _ _ => longest_of_cut
  -- from the end to the beginning, token by token
  have hdot : Relaid ([] ++ (".".toList ++ [])) ([] ++ (".".toList ++ [' '])) :=
    .token .nil .nil id (hmark .dot (by decide)) (hlongest '.' [] _ _ _ rfl) (.same _)
      (.finish .nil hblank nofun)
  have hend : Relaid ([' '] ++ ("END".toList ++ ".".toList))
      ([' '] ++ ("end".toList ++ ". ".toList)) :=
    .token hblank hblank id (hword .endBlock (by decide) _ rfl)
      (hlongest 'E' "ND.".toList _ _ _ rfl) (hcase .endBlock (by decide) _ _ rfl rfl) hdot
  have hbegin : Relaid ([] ++ ("BEGIN".toList ++ " END.".toList))
      (['\n'] ++ ("Begin".toList ++ " end. ".toList)) :=
    .token .nil (.lineFeed .nil) nofun (hword .beginBlock (by decide) _ rfl)
      (hlongest 'B' "EGIN END.".toList _ _ _ rfl) (hcase .beginBlock (by decide) _ _ rfl rfl) hend
  have hsemicolon : Relaid ([] ++ (";".toList ++ "BEGIN END.".toList))
      ([] ++ (";".toList ++ "\nBegin end. ".toList)) :=
    .token .nil .nil id (hmark .semicolon (by decide))
      (hlongest ';' "BEGIN END.".toList _ _ _ rfl) (.same _) hbegin
  have hname : Relaid ([' '] ++ ("p".toList ++ ";BEGIN END.".toList))
      ([' '] ++ ("p".toList ++ ";\nBegin end. ".toList)) :=
    .token hblank hblank id (.identifier rfl nofun (by decide))
      (hlongest 'p' ";BEGIN END.".toList _ _ _ rfl) (.same _) hsemicolon
  have hprogram : Relaid ([] ++ ("PROGRAM".toList ++ " p;BEGIN END.".toList))
      ('{' :: ("one".toList ++ '}' :: [' ']) ++ ("program".toList ++ " p;\nBegin end. ".toList)) :=
    .token .nil hcomment nofun (hword .program (by decide) _ rfl)
      (hlongest 'P' "ROGRAM p;BEGIN END.".toList _ _ _ rfl)
      (hcase .program (by decide) _ _ rfl rfl) hname
  have hrelaid : Relaid "PROGRAM p;BEGIN END.".toList "{one} program p;\nBegin end. ".toList :=
    hprogram
  exact ⟨hrelaid, (same_meaning_of_relaid.2 _ _ hrelaid).2.2.2⟩

end MiniPascal

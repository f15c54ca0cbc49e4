/-
`EarliestError.lean` -- a source that is refused is refused as early as possible.

Reading stops behind some tokens that could still have become a program (`Viable`), and
what comes next is the first thing for which there is no way on: a piece of text that is no
token, or a token with which no program goes on, or one from which on every program nests
too deeply (`EarliestFault`). What the error says is expected could indeed stand there.

Two facts about rules meet here. Where a rule fails, what it has passed begins a program
and what it asks for is in order (`exists_of_wholeProgram_error`); and the failure depends
on nothing behind the token at which it happens (`online_wholeProgram`). If some program did
begin with the tokens up to that one, the rule would fail on it in the same way. But it
accepts every program, except for those that nest too deeply.

The two facts name the same token because both name its place, and a place in a source
belongs to one token only.
-/
import MiniPascal.Proofs.Landmarks
import MiniPascal.Proofs.Online
import MiniPascal.Proofs.Parsing
import MiniPascal.Proofs.Tokenization
import MiniPascal.Proofs.Viability

set_option autoImplicit false

namespace MiniPascal

open Phrase

/-! ## Cursors and what lies ahead of them -/

namespace Cursor

/-- The answers from the current token on, up to the end of the input or the first
error. -/
def ahead (c : Cursor) : List Answer :=
  .ok c.current :: if c.current.kind.isEnd then []
    else TokenStream.untilError c.stream.last c.stream.upcoming

/-- A cursor that has read a token of a stream has the answers of the stream ahead. -/
theorem ahead_of_read {s rest : TokenStream} {next : Token} {depth : Nat} {seen : Array Token}
    (hlast : s.last.kind.isEnd = true) (hnoend : ∀ t, .ok t ∈ s.upcoming → t.kind.isEnd = false)
    (h : s.read = (.ok next, rest)) :
    ahead ⟨next, rest, depth, seen⟩ = TokenStream.untilError s.last s.upcoming := by
  unfold TokenStream.read at h
  split at h
  · next hup =>
    cases h
    rw [hup, ahead, if_pos hlast]
    rfl
  · next answer others hup =>
    cases h
    rw [hup] at hnoend ⊢
    have hnext : ¬ next.kind.isEnd = true := by simp [hnoend next List.mem_cons_self]
    rw [ahead, if_neg hnext]
    rfl

/-- What lies ahead is what a walk passes and then what lies ahead of its end. -/
theorem Walks.ahead_eq {c d : Cursor} {us : List Token} (h : c.Walks us d) (hc : c.Orderly) :
    c.ahead = us.map .ok ++ d.ahead := by
  induction h with
  | stay => rfl
  | @step c d c' ts hend hadvance _ ih =>
    obtain ⟨-, next, rest, hread, rfl⟩ := advance_eq_ok_iff.mp hadvance
    have horderly : Orderly ⟨next, rest, c.depth, note c.seen next⟩ :=
      (pending_of_read hc.closed hc.not_end hread).2
    rw [List.map_cons, List.cons_append, ← ih horderly, ahead_of_read hc.closed hc.not_end hread]
    exact congrArg (List.cons _) (if_neg (by simp [hend]))

/-- A cursor in front of a piece of text that is no token. -/
theorem ahead_of_error {d : Cursor} {e : Error LexicalFault} {s : TokenStream}
    (hend : d.current.kind.isEnd = false) (h : d.stream.read = (.error e, s)) :
    d.ahead = [.ok d.current, .error e] := by
  unfold TokenStream.read at h
  split at h
  · cases h
  · next answer others hup =>
    cases h
    rw [ahead, if_neg (by simp [hend]), hup]
    rfl

theorem drain_ofSource (source : String) :
    (TokenStream.ofSource source).drain = TokenStream.untilError
      (TokenStream.ofSource source).last (TokenStream.ofSource source).upcoming :=
  TokenStream.drain_eq _ _

theorem drain_eq_ahead {source : String} {c : Cursor} (h : ofStream (.ofSource source) = .ok c) :
    (TokenStream.ofSource source).drain = c.ahead := by
  unfold ofStream at h
  split at h
  · next hread =>
    cases h
    rw [drain_ofSource, ahead_of_read rfl (fun _ => TokenStream.not_end_of_upcoming) hread]
  · cases h

/-- A source that does not begin with a token has nothing but the error. -/
theorem drain_of_error {source : String} {e : Error ReadingFault}
    (h : ofStream (.ofSource source) = .error e) :
    ∃ e' : Error LexicalFault, e = e'.map .lexical ∧
      (TokenStream.ofSource source).drain = [.error e'] := by
  unfold ofStream at h
  split at h
  · cases h
  · next e' rest hread =>
    cases h
    refine ⟨e', rfl, ?_⟩
    unfold TokenStream.read at hread
    split at hread
    · cases hread
    · next answer others hup =>
      cases hread
      rw [drain_ofSource, hup]
      rfl

/-- There is a cursor in front of any tokens, with nothing behind them. -/
theorem exists_walk {ts : List Token} (h : ∀ t ∈ ts, t.kind.isEnd = false) :
    ∃ c d : Cursor, c.Closed ∧ c.depth = 0 ∧ c.Walks ts d ∧ d.current.kind.isEnd = true := by
  let s : TokenStream := ⟨ts.map .ok, ⟨.endOfInput, "", .start⟩, false⟩
  obtain ⟨next, rest, hread⟩ : ∃ next rest, s.read = (.ok next, rest) := by
    cases ts with
    | nil => exact ⟨_, _, rfl⟩
    | cons t ts => exact ⟨_, _, rfl⟩
  have hnoend : ∀ t, .ok t ∈ s.upcoming → t.kind.isEnd = false := by
    intro t ht
    obtain ⟨u, hu, heq⟩ := List.mem_map.mp ht
    exact Except.ok.inj heq ▸ h u hu
  obtain ⟨hpending, horderly⟩ : pending ⟨next, rest, 0, #[]⟩ = s.upcoming ∧
      Orderly ⟨next, rest, 0, #[]⟩ := pending_of_read rfl hnoend hread
  obtain ⟨d, hwalk, hend⟩ := (walks_to_end_iff horderly).mpr hpending
  exact ⟨_, d, horderly.closed, rfl, hwalk, hend⟩

end Cursor

/-! ## One token for a place -/

/-- Two answers with the same place are the same, if places increase. -/
theorem eq_of_place {before before' after after' : List Answer} {a b : Answer}
    (h : before ++ a :: after = before' ++ b :: after')
    (hordered : ((before ++ a :: after).map Answer.place).Pairwise Position.Precedes)
    (hplace : a.place = b.place) : before = before' ∧ a = b := by
  induction before generalizing before' with
  | nil =>
    cases before' with
    | nil => exact ⟨rfl, (List.cons.inj h).1⟩
    | cons x xs =>
      obtain ⟨rfl, rfl⟩ := List.cons.inj h
      have hfirst := (List.pairwise_cons.mp hordered).1
      have hlater : b.place ∈ (xs ++ b :: after').map Answer.place :=
        List.mem_map_of_mem (List.mem_append_right _ List.mem_cons_self)
      exact absurd hplace (hfirst _ hlater).ne
  | cons x xs ih =>
    obtain ⟨hfirst, hrest⟩ := List.pairwise_cons.mp hordered
    cases before' with
    | nil =>
      obtain ⟨rfl, rfl⟩ := List.cons.inj h
      have hlater : a.place ∈ (xs ++ a :: after).map Answer.place :=
        List.mem_map_of_mem (List.mem_append_right _ List.mem_cons_self)
      exact absurd hplace.symm (hfirst _ hlater).ne
    | cons y ys =>
      obtain ⟨rfl, htail⟩ := List.cons.inj h
      obtain ⟨hbefore, hab⟩ := ih htail hrest
      exact ⟨congrArg (List.cons x) hbefore, hab⟩

/-! ## What no program can go on with -/

/-- Some program of the grammar begins with these tokens, however deeply it nests. -/
def Viable (us : List Token) : Prop := Begins IsProgram us

/-- The tokens are a program of the grammar, however deeply it nests. -/
def Complete (us : List Token) : Prop := ∃ n p, IsProgram n us p

theorem viable_nil : Viable [] := by
  obtain ⟨vs, n, block, hblock⟩ := Rule.begins_block (P := IsProcedure)
  exact begins_nil (.mk (Terminal.token_is .program) Rule.sampleName_names
    (Terminal.token_is .semicolon) hblock (Terminal.token_is .dot))

section Failures

variable {c d m : Cursor} {e : Error ReadingFault} {us vs : List Token} {n : Nat} {p : Program}

/-- Where a failure repeats itself, only a program that nests too deeply goes on. -/
theorem tooDeep_of_retraced (hc : c.depth = 0)
    (hsame : ∀ ⦃c' d'⦄, Cursor.Retraces us c d c' d' → ∃ m', Rule.wholeProgram c' = .error e m')
    (hphrase : IsProgram n (us ++ d.current :: vs) p) :
    maxNesting < n ∧ e.fault = .grammatical (.nestingTooDeep maxNesting) := by
  obtain ⟨c', e', hclosed, hdepth, hwhole, hend⟩ :=
    Cursor.exists_walk (shows_of_isProgram hphrase).not_end
  obtain ⟨d', hfirst, hrest⟩ := hwhole.cut
  obtain ⟨hcurrent, -, -⟩ := hrest.uncons
  obtain ⟨m', hfail⟩ := hsame ⟨hclosed, hdepth.trans hc.symm, hfirst, hcurrent.symm⟩
  have hpasses := Rule.passes_wholeProgram (by omega) hclosed hphrase hwhole hend
  by_cases hn : n ≤ maxNesting
  · rw [hpasses.ok (by omega)] at hfail
    cases hfail
  · obtain ⟨q, m'', htooDeep⟩ := hpasses.tooDeep (by omega)
    rw [htooDeep] at hfail
    cases hfail
    exact ⟨Nat.lt_of_not_le hn, rfl⟩

/-- Behind a program the only complaint is that something stands there. -/
theorem not_complete_of_error {f : SyntaxFault} (hc : c.depth = 0) (hclosed : c.Closed)
    (hwalk : c.Walks us d) (herror : Rule.wholeProgram c = .error (d.fault f) m)
    (hdeep : f ≠ .nestingTooDeep maxNesting) (htrailing : ∀ first, f ≠ .trailingTokens first) :
    ¬ Complete us := by
  rintro ⟨n, p, hphrase⟩
  have hpasses := Rule.accepts_program (by omega) hphrase hclosed hc hwalk trivial
  by_cases hn : n ≤ maxNesting
  · have hok := hpasses.ok (by omega)
    rw [Rule.wholeProgram, bind_of_ok hok, Rule.peek_bind] at herror
    split at herror
    · cases herror
    · cases herror
      exact htrailing _ rfl
  · obtain ⟨q, m', htooDeep⟩ := hpasses.tooDeep (by omega)
    rw [Rule.wholeProgram, bind_of_error htooDeep] at herror
    cases herror
    exact hdeep rfl

end Failures

/-! ## Sources -/

/-- Behind the tokens `us` comes the answer that makes the source fail, for this reason. -/
inductive EarliestFault (us : List Token) : Answer → Fault → Prop
  /-- A piece of text that is no token. -/
  | lexical {e : Error LexicalFault} : EarliestFault us (.error e) (.lexical e.fault)
  /-- A token that no program goes on with, while programs do go on with whatever is
  expected. -/
  | unexpectedToken {t : Token} {expected : Expectation} :
      t.kind.isEnd = false → ¬ Complete us → ¬ Viable (us ++ [t]) →
      (∃ u : Token, expected.Allows u.kind) →
      (∀ u : Token, expected.Allows u.kind → Viable (us ++ [u])) →
      EarliestFault us (.ok t) (.grammatical (.unexpectedToken expected t.kind))
  /-- The end, where no program ends, while programs do go on with whatever is expected. -/
  | unexpectedEndOfInput {t : Token} {expected : Expectation} :
      t.kind.isEnd = true → ¬ Complete us → ¬ Viable (us ++ [t]) →
      (∃ u : Token, expected.Allows u.kind) →
      (∀ u : Token, expected.Allows u.kind → Viable (us ++ [u])) →
      EarliestFault us (.ok t) (.grammatical (.unexpectedEndOfInput expected))
  /-- A token behind a program. -/
  | trailingTokens {t : Token} :
      t.kind.isEnd = false → Complete us → ¬ Viable (us ++ [t]) →
      EarliestFault us (.ok t) (.grammatical (.trailingTokens t.kind))
  /-- A token from which on every program nests too deeply. -/
  | nestingTooDeep {t : Token} :
      (∀ vs n p, IsProgram n (us ++ t :: vs) p → maxNesting < n) →
      EarliestFault us (.ok t) (.grammatical (.nestingTooDeep maxNesting))

section Sources

variable {source : String} {c d m : Cursor} {us : List Token} {f : SyntaxFault}

/-- From the token on at which a source fails, only programs that nest too deeply go on. -/
theorem tooDeep_of_continued (hc : Cursor.ofStream (.ofSource source) = .ok c)
    (herror : Rule.wholeProgram c = .error (d.fault f) m) (hwalk : c.Walks us d)
    {vs : List Token} {n : Nat} {p : Program} (hphrase : IsProgram n (us ++ d.current :: vs) p) :
    maxNesting < n ∧ f = .nestingTooDeep maxNesting := by
  obtain ⟨-, horderly, hdepth⟩ := Cursor.ofSource_eq_ok hc
  rcases (Rule.online_wholeProgram c horderly.closed).error herror with
    ⟨fault, hfault⟩ | ⟨us', d', hwalk', hposition, hsame⟩
  · cases hfault
  -- the failure repeats itself behind `us'`, and these are the tokens `us`
  have hordered := (TokenStream.tokenizes_drain source).pairwise
  rw [Cursor.drain_eq_ahead hc, hwalk.ahead_eq horderly, Cursor.ahead] at hordered
  have hsplit := (hwalk.ahead_eq horderly).symm.trans (hwalk'.ahead_eq horderly)
  rw [Cursor.ahead, Cursor.ahead] at hsplit
  obtain ⟨hus, hcurrent⟩ := eq_of_place hsplit hordered hposition
  obtain rfl : us = us' := List.map_injective_iff.mpr (fun _ _ => Except.ok.inj) hus
  rw [Except.ok.inj hcurrent] at hphrase
  obtain ⟨hn, hfault⟩ := tooDeep_of_retraced hdepth hsame hphrase
  exact ⟨hn, ReadingFault.grammatical.inj hfault⟩

theorem not_viable_of_error (hc : Cursor.ofStream (.ofSource source) = .ok c)
    (herror : Rule.wholeProgram c = .error (d.fault f) m) (hwalk : c.Walks us d)
    (hdeep : f ≠ .nestingTooDeep maxNesting) : ¬ Viable (us ++ [d.current]) := by
  rintro ⟨vs, n, p, hphrase⟩
  rw [List.append_assoc] at hphrase
  exact hdeep (tooDeep_of_continued hc herror hwalk hphrase).2

/-- A rule that asks for something else does so at the first token that is out of place. -/
theorem earliestFault_of_unexpected {what : Expectation}
    (hc : Cursor.ofStream (.ofSource source) = .ok c)
    (herror : Rule.wholeProgram c = .error (d.unexpected what) m) (hwalk : c.Walks us d)
    (hallowed : ∀ t : Token, what.Allows t.kind → Viable (us ++ [t])) :
    EarliestFault us (.ok d.current) (d.unexpected what).fault.toFault := by
  obtain ⟨-, horderly, hdepth⟩ := Cursor.ofSource_eq_ok hc
  by_cases hend : d.current.kind.isEnd = true
  · rw [Cursor.unexpected, if_pos hend] at herror ⊢
    exact .unexpectedEndOfInput hend
      (not_complete_of_error hdepth horderly.closed hwalk herror (by simp) (by simp))
      (not_viable_of_error hc herror hwalk (by simp)) what.exists_allowed hallowed
  · rw [Cursor.unexpected, if_neg hend] at herror ⊢
    exact .unexpectedToken (Bool.eq_false_iff.mpr hend)
      (not_complete_of_error hdepth horderly.closed hwalk herror (by simp) (by simp))
      (not_viable_of_error hc herror hwalk (by simp)) what.exists_allowed hallowed

/-- The answer at which the rule for programs stops, and the tokens before it. -/
theorem exists_earliestFault {e : Error ReadingFault}
    (hc : Cursor.ofStream (.ofSource source) = .ok c) (herror : Rule.wholeProgram c = .error e m) :
    ∃ us answer rest, c.ahead = us.map .ok ++ answer :: rest ∧ answer.place = e.position ∧
      Viable us ∧ EarliestFault us answer e.fault.toFault := by
  obtain ⟨-, horderly, -⟩ := Cursor.ofSource_eq_ok hc
  obtain ⟨us, d, hwalk, hverdict⟩ := Rule.exists_of_wholeProgram_error herror
  have hahead := hwalk.ahead_eq horderly
  have hcurrent := hahead
  rw [Cursor.ahead] at hcurrent
  rcases hverdict with hverdict | ⟨⟨n, p, hphrase⟩, hend, rfl⟩
  · cases hverdict with
    | @lexical e' s hend hread hviable =>
      rw [Cursor.ahead_of_error hend hread] at hahead
      refine ⟨us ++ [d.current], .error e', [], ?_, rfl, hviable, .lexical⟩
      rw [hahead, List.map_append, List.append_assoc]
      rfl
    | @unexpected what hallowed =>
      obtain ⟨t, ht⟩ := what.exists_allowed
      exact ⟨us, .ok d.current, _, hcurrent, (Rule.position_unexpected d what).symm,
        (hallowed t ht).of_append, earliestFault_of_unexpected hc herror hwalk hallowed⟩
    | tooDeep hviable =>
      exact ⟨us, .ok d.current, _, hcurrent, rfl, hviable, .nestingTooDeep fun _ _ _ hphrase =>
        (tooDeep_of_continued hc herror hwalk hphrase).1⟩
  · exact ⟨us, .ok d.current, _, hcurrent, rfl, begins_of_phrase hphrase, .trailingTokens hend
      ⟨n, p, hphrase⟩ (not_viable_of_error hc herror hwalk (by simp))⟩

/-- **Errors are reported as early as possible.** The answers that a refused source hands
out begin with tokens that some program begins with, and the next answer, at whose place the
error stands, is one that no program goes on with, or the first piece of text that is no
token, or a token with which every program nests too deeply. A token that is said to be
expected would have been in order, and something behind a program is called that. -/
theorem parse_error_earliest {e : Error Fault} (h : parse source = .error e) :
    ∃ us answer rest, (TokenStream.ofSource source).drain = us.map .ok ++ answer :: rest ∧
      answer.place = e.position ∧ Viable us ∧ EarliestFault us answer e.fault := by
  obtain ⟨e, rfl, hread | ⟨c, m, hc, herror⟩⟩ := exists_of_parse_error h
  · obtain ⟨e', rfl, hdrain⟩ := Cursor.drain_of_error hread
    exact ⟨[], .error e', [], hdrain, rfl, viable_nil, .lexical⟩
  · rw [Cursor.drain_eq_ahead hc]
    exact exists_earliestFault hc herror

end Sources

/-- What a source is refused for, when a name stands where something else is expected. -/
def misplacedName? : Except (Error Fault) Program → Option (Expectation × String)
  | .error ⟨.grammatical (.unexpectedToken what (.identifier name)), _⟩ => some (what, name)
  | _ => none

/-- A source in which a semicolon is missing between two statements. -/
def unseparatedSource : String :=
  "PROGRAM p; VAR a, b : INTEGER; BEGIN a := 1 b := 2 END."

/-- The name behind the place of the semicolon is refused, and no program goes on with it,
but some do with a semicolon. -/
theorem parse_error_earliest_unseparated :
    ∃ e us t rest, parse unseparatedSource = .error e ∧
      e.fault = .grammatical (.unexpectedToken .separatorOrEnd (.identifier "b")) ∧
      (TokenStream.ofSource unseparatedSource).drain = us.map .ok ++ .ok t :: rest ∧
      t.position = e.position ∧ t.Names "b" ∧ ¬ Complete us ∧ ¬ Viable (us ++ [t]) ∧
      Viable (us ++ [Terminal.semicolon.token]) := by
  have hname : misplacedName? (parse unseparatedSource) = some (.separatorOrEnd, "b") := by
    decide +kernel
  obtain ⟨e, hparse, he⟩ : ∃ e, parse unseparatedSource = .error e ∧
      e.fault = .grammatical (.unexpectedToken .separatorOrEnd (.identifier "b")) := by
    unfold misplacedName? at hname
    split at hname
    · next what name position hparse =>
      cases hname
      exact ⟨_, hparse, rfl⟩
    · cases hname
  obtain ⟨us, answer, rest, hdrain, hplace, -, hfault⟩ := parse_error_earliest hparse
  obtain ⟨t, rfl, hkind, hcomplete, hviable, hallowed⟩ : ∃ t : Token, answer = .ok t ∧
      t.kind = .identifier "b" ∧ ¬ Complete us ∧ ¬ Viable (us ++ [t]) ∧
      ∀ u : Token, Expectation.separatorOrEnd.Allows u.kind → Viable (us ++ [u]) := by
    generalize hcause : e.fault = cause at hfault
    cases hfault with
    | @unexpectedToken t _ _ hcomplete hviable _ hallowed =>
      injection hcause.symm.trans he with hreason
      injection hreason with hwhat hkind
      exact ⟨t, rfl, hkind, hcomplete, hviable, hwhat ▸ hallowed⟩
    | _ => cases hcause.symm.trans he
  exact ⟨e, us, t, rest, hparse, he, hdrain, hplace, hkind, hcomplete, hviable,
    hallowed _ (.inl rfl)⟩

end MiniPascal

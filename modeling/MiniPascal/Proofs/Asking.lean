/-
`Asking.lean` -- two ways of asking one stream.

A stream can be asked by `read`, which always answers, and by `next?`, which stops. Callers
may mix the two. Whatever they do, the answers come in one order, and it does not matter
which way asked for them. What the two share beside it is a flag, and each raises it for
reasons of its own. `Call.Settles` lists these reasons; the step lemma is that the flag is up
behind a call exactly if it was up before or the call was such a reason
(`Call.finished_make`).

A stream does not show how far the scanner has come in the text. A `Scanner` does: it keeps the
text that is left, and cuts it when it is asked. It gives the same answers
(`TokenStream.StandsAt.read`), and every answer but the end of the input costs it text
(`Scanner.exists_passed`), which bounds how many there are.
-/
import Mathlib.Data.List.Induction
import MiniPascal.Proofs.Resuming

set_option autoImplicit false

namespace MiniPascal

open Lexeme

/-- Is the answer the end of the input? -/
def Answer.isEnd : Answer → Bool
  | .ok t => t.kind.isEnd
  | .error _ => false

/-! ## One call -/

namespace TokenStream

/-- Only the last token is the end of the input. -/
structure EndsOnce (s : TokenStream) : Prop where
  last : s.last.kind.isEnd = true
  upcoming : ∀ answer ∈ s.upcoming, Answer.isEnd answer = false

theorem endsOnce_ofSource (source : String) : (ofSource source).EndsOnce := by
  refine ⟨rfl, fun answer hanswer => ?_⟩
  cases answer with
  | error => rfl
  | ok t => exact not_end_of_upcoming hanswer

theorem EndsOnce.isEnd_read_iff {s : TokenStream} (h : s.EndsOnce) :
    s.read.1.isEnd = true ↔ s.upcoming = [] := by
  rw [read_eq]
  cases hup : s.upcoming with
  | nil => simpa [Answer.isEnd] using h.last
  | cons answer rest =>
    have hanswer := h.upcoming answer (by rw [hup]; exact List.mem_cons_self)
    simp [hanswer]

theorem finished_read_iff (s : TokenStream) :
    s.read.2.finished = true ↔ s.finished = true ∨ s.upcoming = [] := by
  unfold read
  split
  · next h => simp [h]
  · next h => simp [h]

/-- `next?` has no answer exactly if the stream is finished. -/
theorem next?_eq_none_iff (s : TokenStream) : s.next?.1 = none ↔ s.finished = true := by
  unfold next?
  split
  · next h => simp [h]
  · next h => split <;> simp [h]

/-- And then nothing happens. -/
theorem next?_of_finished {s : TokenStream} (h : s.finished = true) : s.next? = (none, s) := by
  rw [next?, if_pos h]

/-- Otherwise it reads, and takes an error for the last answer. -/
theorem next?_of_unfinished {s : TokenStream} (h : s.finished = false) :
    s.next? = (some s.read.1,
      { s.read.2 with finished := s.read.2.finished || !s.read.1.isOk }) := by
  rw [next?, h, if_neg nofun]
  rcases s.read with ⟨answer, t⟩
  cases answer with
  | ok => simp [Except.toBool]
  | error => simp [Except.toBool]

end TokenStream

/-- A way of asking. -/
inductive Call where
  | read | next
deriving DecidableEq, Repr

namespace Call

/-- Asks a stream; `none` is no answer. -/
def make : Call → TokenStream → Option Answer × TokenStream
  | read, s => (some s.read.1, s.read.2)
  | next, s => s.next?

/-- An exchange after which the stream counts as finished: the reply was the end of the input,
or it was an error and `next?` had asked. -/
def Settles : Call × Option Answer → Prop
  | (_, some (.ok t)) => t.kind.isEnd = true
  | (call, some (.error _)) => call = .next
  | (_, none) => False

variable {s : TokenStream} {call : Call}

/-- A call without an answer changes nothing. -/
theorem make_eq_self (h : (call.make s).1 = none) : (call.make s).2 = s := by
  cases call with
  | read => cases h
  | next =>
    rw [make, TokenStream.next?_of_finished ((TokenStream.next?_eq_none_iff s).mp h)]

/-- A call with an answer reads, whichever way it asks. -/
theorem make_reads {answer : Answer} (h : (call.make s).1 = some answer) :
    answer = s.read.1 ∧ (call.make s).2.upcoming = s.upcoming.tail ∧
      (call.make s).2.last = s.last := by
  cases call with
  | read =>
    cases h
    exact ⟨rfl, s.upcoming_read, s.last_read_eq⟩
  | next =>
    cases hfinished : s.finished with
    | true =>
      rw [make, TokenStream.next?_of_finished hfinished] at h
      cases h
    | false =>
      rw [make, TokenStream.next?_of_unfinished hfinished] at h ⊢
      cases h
      exact ⟨rfl, s.upcoming_read, s.last_read_eq⟩

/-- The step lemma: a call finishes the stream exactly if it is a reason to. -/
theorem finished_make (h : s.EndsOnce) :
    (call.make s).2.finished = true ↔ s.finished = true ∨ Settles (call, (call.make s).1) := by
  have hend := h.isEnd_read_iff
  cases call with
  | read =>
    rw [make, TokenStream.finished_read_iff, ← hend]
    cases s.read.1 with
    | ok t => rfl
    | error e => simp [Answer.isEnd, Settles]
  | next =>
    cases hfinished : s.finished with
    | true => simp [make, TokenStream.next?_of_finished hfinished, hfinished]
    | false =>
      rw [make, TokenStream.next?_of_unfinished hfinished]
      dsimp only
      rw [Bool.or_eq_true, TokenStream.finished_read_iff, ← hend, hfinished]
      cases s.read.1 with
      | ok t => simp [Answer.isEnd, Settles, Except.toBool]
      | error e => simp [Settles, Except.toBool]

end Call

/-! ## Many calls -/

namespace TokenStream

variable {s : TokenStream} {calls : List Call}

/-- Some calls and their replies. -/
def transcript (s : TokenStream) : List Call → List (Call × Option Answer)
  | [] => []
  | call :: calls => (call, (call.make s).1) :: (call.make s).2.transcript calls

/-- The stream after some calls. -/
def afterCalls (s : TokenStream) : List Call → TokenStream
  | [] => s
  | call :: calls => (call.make s).2.afterCalls calls

/-- The answers among the replies. -/
def given (s : TokenStream) (calls : List Call) : List Answer :=
  (s.transcript calls).filterMap Prod.snd

theorem transcript_concat (s : TokenStream) (calls : List Call) (call : Call) :
    s.transcript (calls ++ [call]) =
      s.transcript calls ++ [(call, (call.make (s.afterCalls calls)).1)] := by
  induction calls generalizing s with
  | nil => rfl
  | cons first calls ih => rw [List.cons_append, transcript, ih, transcript, afterCalls]; rfl

theorem afterCalls_concat (s : TokenStream) (calls : List Call) (call : Call) :
    s.afterCalls (calls ++ [call]) = (call.make (s.afterCalls calls)).2 := by
  induction calls generalizing s with
  | nil => rfl
  | cons first calls ih => rw [List.cons_append, afterCalls, ih, afterCalls]

theorem given_concat (s : TokenStream) (calls : List Call) (call : Call) :
    s.given (calls ++ [call]) =
      s.given calls ++ (call.make (s.afterCalls calls)).1.toList := by
  rw [given, transcript_concat, List.filterMap_append]
  cases h : (call.make (s.afterCalls calls)).1 <;> rfl

/-- What calls leave of a stream: as many answers are gone as were given, and these were the
first ones. -/
structure Given (s : TokenStream) (calls : List Call) : Prop where
  upcoming : (s.afterCalls calls).upcoming = s.upcoming.drop (s.given calls).length
  last : (s.afterCalls calls).last = s.last
  answers : s.given calls = (List.range (s.given calls).length).map s.answer

/-- The run lemma for the answers. -/
theorem given_afterCalls (s : TokenStream) (calls : List Call) : Given s calls := by
  -- on the last call: the answers so far say where the stream stands when it is made
  induction calls using List.reverseRecOn with
  | nil => exact ⟨rfl, rfl, rfl⟩
  | append_singleton calls call ih =>
    cases hreply : (call.make (s.afterCalls calls)).1 with
    | none =>
      have hgiven : s.given (calls ++ [call]) = s.given calls := by
        rw [given_concat, hreply, Option.toList_none, List.append_nil]
      have hafter : s.afterCalls (calls ++ [call]) = s.afterCalls calls := by
        rw [afterCalls_concat, Call.make_eq_self hreply]
      refine ⟨?_, ?_, ?_⟩
      · rw [hgiven, hafter, ih.upcoming]
      · rw [hafter, ih.last]
      · rw [hgiven, ← ih.answers]
    | some answer =>
      obtain ⟨hanswer, hupcoming, hlast⟩ := Call.make_reads hreply
      have hgiven : s.given (calls ++ [call]) = s.given calls ++ [answer] := by
        rw [given_concat, hreply, Option.toList_some]
      have hnext : answer = s.answer (s.given calls).length := by
        rw [hanswer, read_eq, ih.upcoming, ih.last, answer_eq, List.head?_drop]
      refine ⟨?_, ?_, ?_⟩
      · rw [hgiven, afterCalls_concat, hupcoming, ih.upcoming, List.tail_drop, List.length_append,
          List.length_singleton]
      · rw [afterCalls_concat, hlast, ih.last]
      · rw [hgiven, List.length_append, List.length_singleton, List.range_succ, List.map_append,
          ← ih.answers, hnext]
        rfl

theorem endsOnce_afterCalls (h : s.EndsOnce) (calls : List Call) :
    (s.afterCalls calls).EndsOnce := by
  have hgiven := given_afterCalls s calls
  refine ⟨hgiven.last ▸ h.last, fun answer hanswer => h.upcoming answer ?_⟩
  rw [hgiven.upcoming] at hanswer
  exact List.mem_of_mem_drop hanswer

/-- The run lemma for the flag: it is up exactly if there was a reason. -/
theorem finished_afterCalls (h : s.EndsOnce) (hfresh : s.finished = false) :
    (s.afterCalls calls).finished = true ↔
      ∃ exchange ∈ s.transcript calls, Call.Settles exchange := by
  induction calls using List.reverseRecOn with
  | nil => simp [afterCalls, transcript, hfresh]
  | append_singleton calls call ih =>
    rw [afterCalls_concat, Call.finished_make (endsOnce_afterCalls h calls), ih, transcript_concat]
    simp only [List.mem_append, List.mem_singleton, or_and_right, exists_or, exists_eq_left]

end TokenStream

/-! ## The scanner in the text -/

/-- A scanner at work: the text that is left, and the place where it begins. -/
structure Scanner where
  position : Position
  text : List Char

namespace Scanner

/-- Cuts a text that begins at `p` until there is a lexeme with an answer. -/
def scan (p : Position) : List Char → Answer × Scanner
  | [] => (.ok ⟨.endOfInput, "", p⟩, ⟨p, []⟩)
  | c :: cs =>
    let piece := cut c cs
    match piece.1.answer? p with
    | some answer => (answer, ⟨piece.1.stop p, piece.2⟩)
    | none => scan (piece.1.stop p) piece.2
termination_by text => text.length
decreasing_by exact length_cut_lt c cs

/-- In front of a source. -/
def ofSource (source : String) : Scanner := ⟨.start, source.toList⟩

/-- The next answer, and the scanner behind it. -/
def read (s : Scanner) : Answer × Scanner := scan s.position s.text

/-- The scanner after so many readings. -/
def afterReads (s : Scanner) : Nat → Scanner
  | 0 => s
  | k + 1 => (s.afterReads k).read.2

variable {p : Position} {c : Char} {cs rest : List Char} {lexeme : Lexeme}

theorem scan_nil (p : Position) : scan p [] = (.ok ⟨.endOfInput, "", p⟩, ⟨p, []⟩) := by
  rw [scan]

theorem scan_cons (h : cut c cs = (lexeme, rest)) : scan p (c :: cs) =
    match lexeme.answer? p with
    | some answer => (answer, ⟨lexeme.stop p, rest⟩)
    | none => scan (lexeme.stop p) rest := by
  rw [scan, h]

/-- A scan passes a part of the text, and for an answer other than the end of the input it is
not empty. -/
theorem exists_passed (p : Position) (text : List Char) :
    ∃ passed, text = passed ++ (scan p text).2.text ∧
      ((scan p text).1.isEnd = false → passed ≠ []) := by
  induction hlength : text.length using Nat.strongRecOn generalizing p text with
  | ind n ih =>
    cases text with
    | nil =>
      rw [scan_nil]
      exact ⟨[], rfl, nofun⟩
    | cons c cs =>
      have hless := hlength ▸ length_cut_lt c cs
      have happend := cut_append c cs
      have hne := cut_ne_nil c cs
      cases hcut : cut c cs with
      | mk lexeme rest =>
        rw [hcut] at hless happend hne
        rw [scan_cons hcut]
        cases lexeme.answer? p with
        | some answer => exact ⟨lexeme.chars, happend.symm, fun _ => hne⟩
        | none =>
          obtain ⟨passed, hpassed, -⟩ := ih _ hless (lexeme.stop p) rest rfl
          refine ⟨lexeme.chars ++ passed, ?_, fun _ => by simp [hne]⟩
          dsimp only
          rw [List.append_assoc, ← hpassed, happend]

end Scanner

namespace TokenStream

open Scanner

/-- The stream has still to give what the scanner is still to find. -/
structure StandsAt (s : TokenStream) (t : Scanner) : Prop where
  upcoming : s.upcoming = (ofText t.position t.text).upcoming
  last : s.last = (ofText t.position t.text).last

theorem scan_eq_read (p : Position) (text : List Char) :
    (scan p text).1 = (ofText p text).read.1 ∧ (ofText p text).read.2.StandsAt (scan p text).2 := by
  induction hlength : text.length using Nat.strongRecOn generalizing p text with
  | ind n ih =>
    cases text with
    | nil =>
      rw [scan_nil, ofText_nil]
      exact ⟨rfl, by rw [ofText_nil]; rfl, by rw [ofText_nil]; rfl⟩
    | cons c cs =>
      have hless := hlength ▸ length_cut_lt c cs
      cases hcut : cut c cs with
      | mk lexeme rest =>
        rw [hcut] at hless
        have hupcoming := @upcoming_ofText_cons p _ _ _ _ hcut
        have hlast := @last_ofText_cons p _ _ _ _ hcut
        rw [scan_cons hcut, read_eq]
        cases hanswer : lexeme.answer? p with
        | some answer =>
          rw [hanswer] at hupcoming
          refine ⟨by rw [hupcoming]; rfl, ?_, ?_⟩
          · rw [upcoming_read, hupcoming]
            rfl
          · rw [last_read_eq, hlast]
        -- a lexeme without an answer is skipped on both sides
        | none =>
          rw [hanswer, Option.toList_none, List.nil_append] at hupcoming
          obtain ⟨hfirst, hafter⟩ := ih _ hless (lexeme.stop p) rest rfl
          refine ⟨by rw [hupcoming, hlast, ← read_eq, hfirst], ?_, ?_⟩
          · rw [upcoming_read, hupcoming, ← upcoming_read, hafter.upcoming]
          · rw [last_read_eq, hlast, ← last_read_eq, hafter.last]

/-- Both give the same answer, and stand alike behind it. -/
theorem StandsAt.read {s : TokenStream} {t : Scanner} (h : s.StandsAt t) :
    t.read.1 = s.read.1 ∧ s.read.2.StandsAt t.read.2 := by
  obtain ⟨hfirst, hafter⟩ := scan_eq_read t.position t.text
  refine ⟨?_, ?_, ?_⟩
  · rw [Scanner.read, hfirst, read_eq, read_eq, h.upcoming, h.last]
  · rw [upcoming_read, h.upcoming, ← upcoming_read, hafter.upcoming]
    rfl
  · rw [last_read_eq, h.last, ← last_read_eq, hafter.last]
    rfl

theorem StandsAt.afterReads {s : TokenStream} {t : Scanner} (h : s.StandsAt t) (k : Nat) :
    (s.afterReads k).StandsAt (t.afterReads k) := by
  induction k with
  | zero => exact h
  | succ k ih => exact ih.read.2

end TokenStream

/-! ## Both together -/

/-- The bytes of a text are those of its characters. -/
theorem Position.bytes_toList (s : String) : bytes s.toList = s.utf8ByteSize := by
  have hbytes : ∀ cs : List Char, bytes cs = (String.ofList cs).utf8ByteSize := by
    intro cs
    induction cs with
    | nil => rfl
    | cons c cs ih =>
      have happend : String.ofList (c :: cs) = String.singleton c ++ String.ofList cs := by
        rw [← String.toList_inj, String.toList_append, String.toList_ofList,
          String.toList_ofList, String.toList_singleton]
        rfl
      rw [bytes, ih, happend, String.utf8ByteSize_append, String.utf8ByteSize_singleton]
  rw [hbytes, String.ofList_toList]

theorem Position.one_le_bytes {cs : List Char} (h : cs ≠ []) : 1 ≤ bytes cs := by
  cases cs with
  | nil => exact absurd rfl h
  | cons c cs =>
    have hc : 0 < c.utf8Size := c.utf8Size_pos
    rw [bytes]
    omega

namespace TokenStream

/-- The readings of a source, and how far they take the scanner. -/
structure Advances (source : String) : Prop where
  /-- The scanner gives the answers of the stream. -/
  answer_eq : ∀ k, ((Scanner.ofSource source).afterReads k).read.1 = (ofSource source).answer k
  /-- It moves forward, and by a byte at least unless it answers the end of the input. -/
  forward : ∀ k, ∃ passed, ((Scanner.ofSource source).afterReads k).text =
      passed ++ ((Scanner.ofSource source).afterReads (k + 1)).text ∧
    (((ofSource source).answer k).isEnd = false → 1 ≤ Position.bytes passed)
  /-- The end of the input comes after at most as many answers as there are bytes, and from
  then on it is the only answer. -/
  ends : ∃ n ≤ source.utf8ByteSize, (∀ k < n, ((ofSource source).answer k).isEnd = false) ∧
    (ofSource source).last.kind = .endOfInput ∧
    ∀ k, n ≤ k → (ofSource source).answer k = .ok (ofSource source).last

/-- What holds behind some calls on the stream of a source. -/
structure AsksAlike (source : String) (calls : List Call) : Prop where
  /-- The answers that were given are those of reading alone, in the same order. -/
  inOrder : (ofSource source).given calls =
    (List.range ((ofSource source).given calls).length).map (ofSource source).answer
  /-- `next?` has no answer exactly if one of the calls was a reason for that. -/
  silent_iff : ((ofSource source).afterCalls calls).next?.1 = none ↔
    ∃ exchange ∈ (ofSource source).transcript calls, Call.Settles exchange
  /-- Then it changes nothing. -/
  inert : ((ofSource source).afterCalls calls).next?.1 = none →
    ((ofSource source).afterCalls calls).next?.2 = (ofSource source).afterCalls calls
  /-- Once the end of the input was a reply, reading gives the same again. -/
  again : ∀ call t, (call, some (.ok t)) ∈ (ofSource source).transcript calls →
    t.kind.isEnd = true → ((ofSource source).afterCalls calls).read.1 = .ok t
  /-- The scanner stands where as many readings as there were answers have taken it. -/
  place : ((ofSource source).afterCalls calls).StandsAt
    ((Scanner.ofSource source).afterReads ((ofSource source).given calls).length)

variable {source : String} {calls : List Call}

theorem standsAt_ofSource (source : String) :
    (ofSource source).StandsAt (Scanner.ofSource source) := ⟨rfl, rfl⟩

theorem isEnd_answer {s : TokenStream} (h : s.EndsOnce) {k : Nat} (hk : k < s.upcoming.length) :
    (s.answer k).isEnd = false := by
  rw [answer_eq, List.getElem?_eq_getElem hk]
  exact h.upcoming _ (List.getElem_mem hk)

theorem answer_of_length_le {s : TokenStream} {k : Nat} (hk : s.upcoming.length ≤ k) :
    s.answer k = .ok s.last := by
  rw [answer_eq, List.getElem?_eq_none hk]
  rfl

theorem exists_forward (source : String) (k : Nat) :
    ∃ passed, ((Scanner.ofSource source).afterReads k).text =
        passed ++ ((Scanner.ofSource source).afterReads (k + 1)).text ∧
      (((ofSource source).answer k).isEnd = false → 1 ≤ Position.bytes passed) := by
  have hanswer := ((standsAt_ofSource source).afterReads k).read.1
  obtain ⟨passed, hpassed, hne⟩ := Scanner.exists_passed
    ((Scanner.ofSource source).afterReads k).position ((Scanner.ofSource source).afterReads k).text
  refine ⟨passed, hpassed, fun hend => Position.one_le_bytes (hne ?_)⟩
  rw [← hend]
  exact congrArg Answer.isEnd hanswer

/-- Each answer before the end of the input has cost a byte. -/
theorem bytes_afterReads_add_le (source : String) {k : Nat}
    (hk : k ≤ (ofSource source).upcoming.length) :
    Position.bytes ((Scanner.ofSource source).afterReads k).text + k ≤ source.utf8ByteSize := by
  induction k with
  | zero => exact Nat.le_of_eq (Position.bytes_toList source)
  | succ k ih =>
    obtain ⟨passed, hpassed, hone⟩ := exists_forward source k
    have hbytes := congrArg Position.bytes hpassed
    have hpos := hone (isEnd_answer (endsOnce_ofSource source) hk)
    have hbefore := ih (Nat.le_of_succ_le hk)
    rw [Position.bytes_append] at hbytes
    omega

theorem advances_ofSource (source : String) : Advances source := by
  refine ⟨fun k => ((standsAt_ofSource source).afterReads k).read.1, exists_forward source,
    (ofSource source).upcoming.length, ?_, fun k => isEnd_answer (endsOnce_ofSource source), rfl,
    fun k => answer_of_length_le⟩
  have hbytes := bytes_afterReads_add_le source (Nat.le_refl _)
  omega

/-- Where the end of the input was a reply, as many answers were given as there are others, so
nothing else is upcoming. -/
theorem read_of_end {call : Call} {t : Token}
    (h : (call, some (.ok t)) ∈ (ofSource source).transcript calls) (ht : t.kind.isEnd = true) :
    ((ofSource source).afterCalls calls).read.1 = .ok t := by
  have hgiven := given_afterCalls (ofSource source) calls
  have hmem : .ok t ∈ (ofSource source).given calls := List.mem_filterMap.mpr ⟨_, h, rfl⟩
  rw [hgiven.answers] at hmem
  obtain ⟨k, hk, hanswer⟩ := List.mem_map.mp hmem
  have hless : k < ((ofSource source).given calls).length := List.mem_range.mp hk
  -- no upcoming answer is the end of the input, so the k-th reading was behind them all
  have hlength : (ofSource source).upcoming.length ≤ k := by
    refine Nat.le_of_not_lt fun hbefore => ?_
    have hend := isEnd_answer (endsOnce_ofSource source) hbefore
    rw [hanswer, Answer.isEnd, ht] at hend
    cases hend
  have hnil : (ofSource source).upcoming.drop ((ofSource source).given calls).length = [] :=
    List.drop_eq_nil_of_le (by omega)
  rw [read_eq, hgiven.upcoming, hnil, hgiven.last, ← hanswer, answer_of_length_le hlength]
  rfl

end TokenStream

/-- **The two ways of asking agree.** Whatever calls are made on the stream of a source, and in
whatever order, the answers are those of reading alone; `next?` falls silent behind the end of
the input and behind its own errors and nowhere else, and its silence changes nothing. Every
answer takes the scanner on in the text until the end of the input, which repeats for ever. -/
theorem calls_agree (source : String) (calls : List Call) :
    TokenStream.AsksAlike source calls ∧ TokenStream.Advances source := by
  have hgiven := TokenStream.given_afterCalls (.ofSource source) calls
  have hplace := (TokenStream.standsAt_ofSource source).afterReads
    ((TokenStream.ofSource source).given calls).length
  refine ⟨⟨hgiven.answers, ?_, fun hnone => ?_, fun _ _ => TokenStream.read_of_end, ?_, ?_⟩,
    TokenStream.advances_ofSource source⟩
  · rw [TokenStream.next?_eq_none_iff,
      TokenStream.finished_afterCalls (TokenStream.endsOnce_ofSource source) rfl]
  · rw [TokenStream.next?_of_finished ((TokenStream.next?_eq_none_iff _).mp hnone)]
  -- readings and calls have left the same part of the stream
  · rw [hgiven.upcoming, ← hplace.upcoming, TokenStream.upcoming_afterReads]
  · rw [hgiven.last, ← hplace.last, TokenStream.last_afterReads]

end MiniPascal

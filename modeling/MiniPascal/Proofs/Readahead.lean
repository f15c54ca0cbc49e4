/-
`Readahead.lean` -- how far parsing has read.

A cursor has read the tokens up to the one it stands on: they are the first answers of the
source, each kept once, and the current token is the last of them (`Cursor.HasRead`). Reading
goes on with the answer that comes next, so a cursor in the middle of a parse has read no
token behind the current one. Where the next answer is no token, the cursor stays, and the
bad piece of text is the only thing it has read behind the current token (`Cursor.HasMet`).

A rule reads by `advance` and complains at the current token, and a script shows that it does
nothing else. So it is enough to look at one reading (`hasRead_of_read`); `Script.readings`
carries it to whole runs. For a source this means that parsing stops behind the last token it
has read (`StopsBehind`).
-/
import MiniPascal.Proofs.EarliestError
import MiniPascal.Proofs.Script

set_option autoImplicit false

namespace MiniPascal

variable {source : String} {c d : Cursor}

/-! ## What a cursor has read -/

namespace Cursor

/-- The cursor has read the tokens of the source up to the current one, and kept each of them
once; or it stands on the end of the input and has read all of them. -/
structure HasRead (source : String) (c : Cursor) : Prop where
  upcoming_eq : (TokenStream.ofSource source).upcoming =
    c.seen.toList.map .ok ++ c.stream.upcoming
  last_eq : c.stream.last = (TokenStream.ofSource source).last
  current : (∃ before, c.seen.toList = before ++ [c.current]) ∨
    c.current = c.stream.last ∧ c.stream.upcoming = []

/-- The cursor has read the tokens of the source up to the current one, and the piece of text
behind it, which is no token. -/
structure HasMet (source : String) (e : Error LexicalFault) (c : Cursor) : Prop where
  upcoming_eq : (TokenStream.ofSource source).upcoming =
    c.seen.toList.map .ok ++ .error e :: c.stream.upcoming
  current : ∃ before, c.seen.toList = before ++ [c.current]

/-- The depth has nothing to do with it. -/
theorem HasRead.atDepth (h : HasRead source c) (depth : Nat) :
    HasRead source { c with depth } := ⟨h.upcoming_eq, h.last_eq, h.current⟩

theorem HasMet.atDepth {e : Error LexicalFault} (h : HasMet source e c) (depth : Nat) :
    HasMet source e { c with depth } := ⟨h.upcoming_eq, h.current⟩

/-- Only tokens in the text are kept, so none of them is the end of the input. -/
theorem not_end_of_kept {ts : List Token} {rest : List Answer}
    (h : (TokenStream.ofSource source).upcoming = ts.map .ok ++ rest) :
    ∀ t ∈ ts, t.kind.isEnd = false := by
  intro t ht
  have hmem : .ok t ∈ (TokenStream.ofSource source).upcoming := by
    rw [h]
    exact List.mem_append_left _ (List.mem_map_of_mem ht)
  exact TokenStream.not_end_of_upcoming hmem

/-- The step lemma: a token that is read is the next one of the source, and the one that is
kept, unless it is the end of the input. -/
theorem hasRead_of_read {stream rest : TokenStream} {seen : Array Token} {next : Token}
    {depth : Nat}
    (hupcoming : (TokenStream.ofSource source).upcoming = seen.toList.map .ok ++ stream.upcoming)
    (hlast : stream.last = (TokenStream.ofSource source).last)
    (h : stream.read = (.ok next, rest)) : HasRead source ⟨next, rest, depth, note seen next⟩ := by
  unfold TokenStream.read at h
  split at h
  · next hup =>
    cases h
    have hend : stream.last.kind.isEnd = true := by rw [hlast]; rfl
    rw [note, if_pos hend]
    exact ⟨hupcoming, hlast, .inr ⟨rfl, hup⟩⟩
  · next answer others hup =>
    cases h
    have hnext : (TokenStream.ofSource source).upcoming =
        (seen.push next).toList.map .ok ++ others := by
      rw [hupcoming, hup, Array.toList_push, List.map_append, List.append_assoc]
      rfl
    have hin : next ∈ (seen.push next).toList := by simp
    rw [note, if_neg (by rw [not_end_of_kept hnext next hin]; nofun)]
    exact ⟨hnext, hlast, .inl ⟨seen.toList, Array.toList_push⟩⟩

/-- A cursor on the first token of a source has read that token. -/
theorem hasRead_ofStream (h : ofStream (.ofSource source) = .ok c) : HasRead source c := by
  unfold ofStream at h
  split at h
  · next hread =>
    cases h
    exact hasRead_of_read rfl rfl hread
  · cases h

/-- Why reading has stopped on a cursor: the grammar refuses the current token, or behind it
there is no token. -/
inductive Halts (source : String) : Error ReadingFault → Cursor → Prop
  | refused {d : Cursor} {f : SyntaxFault} : HasRead source d → Halts source (d.fault f) d
  | lexical {d : Cursor} {e : Error LexicalFault} : HasMet source e d →
      Halts source (e.map .lexical) d

theorem Halts.atDepth {e : Error ReadingFault} (h : Halts source e d) (depth : Nat) :
    Halts source e { d with depth } := by
  cases h with
  | refused hread => exact .refused (hread.atDepth depth)
  | lexical hmet => exact .lexical (hmet.atDepth depth)

/-- The outcome of a run that starts where tokens have been read. -/
def Ends (source : String) (d : Cursor) : Option (Error ReadingFault) → Prop
  | none => HasRead source d
  | some e => Halts source e d

theorem Ends.atDepth {o : Option (Error ReadingFault)} (h : Ends source d o) (depth : Nat) :
    Ends source { d with depth } o := by
  cases o with
  | none => exact HasRead.atDepth h depth
  | some e => exact Halts.atDepth h depth

/-- Reading on. -/
theorem HasRead.ends_advance (h : HasRead source c) :
    Ends source (stateAfter (Rule.advance c)) (failure? (Rule.advance c)) := by
  unfold Rule.advance
  rcases hread : c.stream.read with ⟨answer, rest⟩
  cases answer with
  | ok next => exact hasRead_of_read h.upcoming_eq h.last_eq hread
  | error e =>
    unfold TokenStream.read at hread
    split at hread
    · cases hread
    · next hup =>
      cases hread
      have hupcoming := h.upcoming_eq
      rw [hup] at hupcoming
      refine .lexical ⟨hupcoming, h.current.resolve_right ?_⟩
      rintro ⟨-, hnil⟩
      rw [hup] at hnil
      cases hnil

end Cursor

open Cursor

/-- On the way of a run, no cursor has read a token behind the current one, and none has
skipped a token or kept it twice. -/
def Cursor.NeverAhead (source : String) (way : List Cursor) : Prop :=
  ∀ d ∈ way, HasRead source d ∨ ∃ e, HasMet source e d

theorem Cursor.Ends.neverAhead {o : Option (Error ReadingFault)} (h : Ends source d o) :
    HasRead source d ∨ ∃ e, HasMet source e d := by
  cases o with
  | none => exact .inl h
  | some e =>
    cases h with
    | refused hread => exact .inl hread
    | lexical hmet => exact .inr ⟨_, hmet⟩

/-- The run lemma: what one reading does is what whole runs do. -/
theorem Script.readings {α : Type} (x : Script α) (h : HasRead source c) :
    NeverAhead source (x.trail c) ∧ Ends source (stateAfter (x.run c)) (failure? (x.run c)) := by
  revert h
  refine trail_induction
    (P := fun c l o d => HasRead source c → NeverAhead source l ∧ Ends source d o)
    ?stay ?fail ?read ?append ?level x c
  case stay =>
    intro c h
    exact ⟨fun d hd => .inl (List.mem_singleton.mp hd ▸ h), h⟩
  case fail =>
    intro c f h
    exact ⟨fun d hd => .inl (List.mem_singleton.mp hd ▸ h), .refused h⟩
  case read =>
    intro c h
    refine ⟨fun d hd => ?_, h.ends_advance⟩
    rcases List.mem_cons.mp hd with rfl | hd
    · exact .inl h
    · exact List.mem_singleton.mp hd ▸ h.ends_advance.neverAhead
  case append =>
    intro c l d l' o e hfirst hnext h
    obtain ⟨hway, hread⟩ := hfirst h
    obtain ⟨hway', hends⟩ := hnext hread
    exact ⟨fun x hx => (List.mem_append.mp hx).elim (hway x) (hway' x), hends⟩
  case level =>
    intro c l o d _ hinner h
    obtain ⟨hway, hends⟩ := hinner (h.atDepth _)
    refine ⟨fun x hx => ?_, hends.atDepth _⟩
    rcases List.mem_cons.mp hx with rfl | hx
    · exact .inl h
    rcases List.mem_append.mp hx with hx | hx
    · exact hway x hx
    · exact List.mem_singleton.mp hx ▸ (hends.atDepth _).neverAhead

/-! ## Sources -/

/-- The answers behind some tokens are those of the rest. -/
theorem TokenStream.untilError_append (last : Token) (ts : List Token) (rest : List Answer) :
    untilError last (ts.map .ok ++ rest) = ts.map .ok ++ untilError last rest := by
  induction ts with
  | nil => rfl
  | cons t ts ih => rw [List.map_cons, List.cons_append, List.cons_append, untilError, ih]

theorem Cursor.drain_of_upcoming {ts : List Token} {rest : List Answer}
    (h : (TokenStream.ofSource source).upcoming = ts.map .ok ++ rest) :
    (TokenStream.ofSource source).drain =
      ts.map .ok ++ TokenStream.untilError (TokenStream.ofSource source).last rest := by
  rw [drain_ofSource, h, TokenStream.untilError_append]

/-- Where the parse of a source has stopped when the tokens `ts` have been read. -/
inductive StopsBehind (source : String) (ts : List Token) : Except (Error Fault) Program → Prop
  /-- Nothing is left: these are all tokens of the source. -/
  | parsed {tree : Program} : Scans source ts → StopsBehind source ts (.ok tree)
  /-- The last token that was read is the one that is refused. -/
  | refused {before : List Token} {t : Token} {rest : List Answer} {f : SyntaxFault} :
      ts = before ++ [t] → (TokenStream.ofSource source).drain = ts.map .ok ++ rest →
      StopsBehind source ts (.error ⟨.grammatical f, t.position⟩)
  /-- These are all tokens of the source, and the end of the input is refused. -/
  | unfinished {eof : Token} {f : SyntaxFault} :
      (TokenStream.ofSource source).drain = ts.map .ok ++ [.ok eof] → eof.kind = .endOfInput →
      StopsBehind source ts (.error ⟨.grammatical f, eof.position⟩)
  /-- These are all tokens before the first piece of text that is no token. -/
  | lexical {e : Error LexicalFault} :
      (TokenStream.ofSource source).drain = ts.map .ok ++ [.error e] →
      StopsBehind source ts (.error (e.map .lexical))

/-- A cursor on the end of the input has read all tokens. -/
theorem Cursor.HasRead.scans (h : HasRead source d) (hend : d.current.kind.isEnd = true) :
    Scans source d.seen.toList := by
  rcases h.current with ⟨before, hbefore⟩ | ⟨-, hnil⟩
  · have hkept := not_end_of_kept h.upcoming_eq d.current (by simp [hbefore])
    rw [hend] at hkept
    cases hkept
  · rw [scans_iff_upcoming, h.upcoming_eq, hnil, List.append_nil]

theorem Cursor.Halts.not_end {e : Error ReadingFault} (h : Halts source e d) :
    ∀ t ∈ d.seen.toList, t.kind.isEnd = false := by
  cases h with
  | refused hread => exact not_end_of_kept hread.upcoming_eq
  | lexical hmet => exact not_end_of_kept hmet.upcoming_eq

/-- A cursor on which reading has halted has read the tokens up to there. -/
theorem Cursor.Halts.stopsBehind {e : Error ReadingFault} (h : Halts source e d) :
    StopsBehind source d.seen.toList (.error (e.map ReadingFault.toFault)) := by
  cases h with
  | refused hread =>
    have hdrain := drain_of_upcoming hread.upcoming_eq
    rcases hread.current with ⟨before, hbefore⟩ | ⟨hcurrent, hnil⟩
    · exact .refused hbefore hdrain
    · rw [hnil] at hdrain
      rw [hread.last_eq] at hcurrent
      have hstop : d.current.position = (TokenStream.ofSource source).last.position := by
        rw [hcurrent]
      rw [show (d.fault _).map ReadingFault.toFault = ⟨_, d.current.position⟩ from rfl, hstop]
      exact .unfinished hdrain rfl
  | lexical hmet => exact .lexical (drain_of_upcoming hmet.upcoming_eq)

end MiniPascal

/-
`Balance.lean` -- a cursor can be used again.

A rule that fails leaves the cursor where it stopped, and the next call of the rule for
programs goes on from there. Three things could be left over from the first call. The depth
is none of them: every rule leaves it as it was, however it ends, and on the way it stays
between that and the limit (`Script.levels_trail`). The tokens read so far are none either,
for no rule looks at them (`Script.run_behind`). What is left is the current token and the
rest of the stream, and so a call behind others is a first call on these two
(`depth_balanced`).

Both facts are inductions on scripts, so a rule has them because it has a script.
-/
import MiniPascal.Proofs.Script

set_option autoImplicit false

namespace MiniPascal

open Cursor

variable {α : Type}

/-! ## The depth -/

/-- The way from one cursor to another comes back to the depth it started from, and stays
between this and the limit. -/
structure Cursor.Levels (c : Cursor) (way : List Cursor) (d : Cursor) : Prop where
  depth_eq : d.depth = c.depth
  depth_mem : ∀ e ∈ way, c.depth ≤ e.depth ∧ e.depth ≤ max c.depth maxNesting

/-- Reading leaves the depth alone, also if what comes next is no token. -/
theorem depth_stateAfter_advance (c : Cursor) : (stateAfter (Rule.advance c)).depth = c.depth := by
  unfold Rule.advance
  rcases c.stream.read with ⟨answer, rest⟩
  cases answer <;> rfl

theorem Cursor.Levels.stay (c : Cursor) : Levels c [c] c := by
  refine ⟨rfl, fun e he => ?_⟩
  rw [List.mem_singleton.mp he]
  exact ⟨Nat.le_refl _, Nat.le_max_left _ _⟩

theorem Cursor.Levels.append {c d e : Cursor} {l l' : List Cursor} (h : Levels c l d)
    (h' : Levels d l' e) : Levels c (l ++ l') e := by
  refine ⟨h'.depth_eq.trans h.depth_eq, fun x hx => ?_⟩
  rcases List.mem_append.mp hx with hx | hx
  · exact h.depth_mem x hx
  · exact h.depth_eq ▸ h'.depth_mem x hx

/-- A level is entered only below the limit, and left again. -/
theorem Cursor.Levels.level {c d : Cursor} {l : List Cursor} (hdepth : c.depth < maxNesting)
    (h : Levels { c with depth := c.depth + 1 } l d) :
    Levels c (c :: (l ++ [{ d with depth := d.depth - 1 }])) { d with depth := d.depth - 1 } := by
  have hback : d.depth - 1 = c.depth := by
    rw [h.depth_eq]
    rfl
  refine ⟨hback, fun x hx => ?_⟩
  rcases List.mem_cons.mp hx with rfl | hx
  · exact (Levels.stay x).depth_mem x List.mem_cons_self
  rcases List.mem_append.mp hx with hx | hx
  · have hinner := h.depth_mem x hx
    dsimp only at hinner
    omega
  · rw [List.mem_singleton.mp hx]
    dsimp only
    omega

/-- Every run comes back to the depth it started from. -/
theorem Script.levels_trail (x : Script α) (c : Cursor) :
    Levels c (x.trail c) (stateAfter (x.run c)) := by
  refine trail_induction (P := fun c l _ d => Levels c l d) Levels.stay (fun c _ => .stay c)
    (fun c => ?_) Levels.append Levels.level x c
  refine ⟨depth_stateAfter_advance c, fun e he => ?_⟩
  have hdepth : e.depth = c.depth := by
    rcases List.mem_cons.mp he with rfl | he
    · rfl
    · rw [List.mem_singleton.mp he, depth_stateAfter_advance]
  rw [hdepth]
  exact ⟨Nat.le_refl _, Nat.le_max_left _ _⟩

/-! ## What was read before -/

namespace Cursor

/-- The cursor with other tokens read before. -/
def behind (past : Array Token) (c : Cursor) : Cursor := { c with seen := past ++ c.seen }

/-- A cursor outside of everything, on the same token and with the same rest of the stream,
that has read nothing before. -/
def renewed (c : Cursor) : Cursor := { c with depth := 0, seen := #[] }

theorem note_append (past seen : Array Token) (t : Token) :
    note (past ++ seen) t = past ++ note seen t := by
  unfold note
  split
  · rfl
  · exact Array.push_append

/-- Outside of everything nothing but the tokens read before is missing. -/
theorem behind_renewed {c : Cursor} (h : c.depth = 0) : c.renewed.behind c.seen = c := by
  rw [renewed, behind, Array.append_empty, ← h]

end Cursor

theorem Rule.advance_behind (past : Array Token) (c : Cursor) :
    Rule.advance (c.behind past) = mapState (behind past) (Rule.advance c) := by
  have hstream : (c.behind past).stream.read = c.stream.read := rfl
  rw [Rule.advance, Rule.advance, hstream]
  rcases c.stream.read with ⟨answer, rest⟩
  cases answer with
  | error e => rfl
  | ok t =>
    dsimp only [mapState, behind]
    rw [note_append]

/-- No run looks at the tokens that were read before. -/
theorem Script.run_behind (past : Array Token) (x : Script α) (c : Cursor) :
    x.run (c.behind past) = mapState (behind past) (x.run c) := by
  induction x generalizing c with
  | pure | peek | here | refuse | expected => rfl
  | advance => exact Rule.advance_behind past c
  | bind first next ihfirst ihnext =>
    rw [run, bind_apply, bind_apply, ihfirst]
    cases first.run c with
    | error e d => rfl
    | ok b d => exact ihnext b d
  | nested body ih =>
    have hinner := ih { c with depth := c.depth + 1 }
    have hdepth : (c.behind past).depth = c.depth := rfl
    rw [run, Rule.nested, Rule.nested, hdepth]
    split
    · rw [show body.run { c.behind past with depth := c.depth + 1 } = _ from hinner]
      cases body.run { c with depth := c.depth + 1 } <;> rfl
    · rfl
  | many select item ih =>
    rw [run]
    induction hleft : c.remaining using Nat.strongRecOn generalizing c with
    | ind n ihleft =>
      have hcurrent : (c.behind past).current = c.current := rfl
      rw [Rule.many, Rule.many, hcurrent]
      cases select c.current.kind with
      | none => rfl
      | some b =>
        dsimp only
        rw [ih b c]
        cases (item b).run c with
        | error e d => rfl
        | ok a d =>
          dsimp only [mapState]
          have hremaining : ∀ d : Cursor, (d.behind past).remaining = d.remaining := fun _ => rfl
          rw [hremaining, hremaining]
          split
          · next hless =>
            rw [ihleft d.remaining (hleft ▸ hless) d rfl]
            cases Rule.many select (fun b => (item b).run) d <;> rfl
          · rfl

/-! ## Calls in a row -/

/-- The cursor after so many calls of the rule for whole programs, each from where the one
before it has stopped, whether or not that one has failed. -/
def Cursor.calls (c : Cursor) : Nat → Cursor
  | 0 => c
  | n + 1 => stateAfter (Rule.wholeProgram (c.calls n))

theorem Routine.depth_stateAfter (r : Routine α) (c : Cursor) :
    (stateAfter (r.rule c)).depth = c.depth := by
  rw [← r.run_script]
  exact (r.script.levels_trail c).depth_eq

/-- Between calls the depth is what it was at first. -/
theorem Cursor.depth_calls (c : Cursor) (n : Nat) : (c.calls n).depth = c.depth := by
  induction n with
  | zero => rfl
  | succ n ih => exact (Routine.wholeProgram.depth_stateAfter _).trans ih

/-- A cursor on the first token of a stream is outside of everything. -/
theorem Cursor.depth_ofStream {s : TokenStream} {c : Cursor} (h : ofStream s = .ok c) :
    c.depth = 0 := by
  unfold ofStream at h
  split at h
  · cases h
    rfl
  · cases h

/-- **Levels balance, and no call leaves a trace in the next one.** Whatever a routine of the
grammar does, it leaves the depth as it was, and on its way, from cursor to cursor, the depth
is never less than that and never more than the limit, unless it was so before. So a cursor
that has read the first token of a stream is outside of everything between any two calls of
the rule for whole programs, and each call has the outcome that it has on a new cursor with
the same current token and the same stream; only the tokens read before are kept. -/
theorem depth_balanced :
    (∀ {α : Type} (r : Routine α) (c : Cursor),
      (stateAfter (r.rule c)).depth = c.depth ∧
      Path c (r.script.trail c) (stateAfter (r.rule c)) ∧
      ∀ d ∈ r.script.trail c, c.depth ≤ d.depth ∧ d.depth ≤ max c.depth maxNesting) ∧
    ∀ (s : TokenStream) (first : Cursor), ofStream s = .ok first → ∀ n,
      (first.calls n).depth = 0 ∧
      Rule.wholeProgram (first.calls n) =
        mapState (behind (first.calls n).seen) (Rule.wholeProgram (first.calls n).renewed) := by
  refine ⟨fun r c => ⟨r.depth_stateAfter c, ?_, (r.script.levels_trail c).depth_mem⟩,
    fun s first hfirst n => ?_⟩
  · rw [← r.run_script]
    exact r.script.path_trail c
  · have hdepth : (first.calls n).depth = 0 := (first.depth_calls n).trans (depth_ofStream hfirst)
    refine ⟨hdepth, ?_⟩
    have hbehind := Script.wholeProgram.run_behind (first.calls n).seen (first.calls n).renewed
    rwa [behind_renewed hdepth, Script.run_wholeProgram] at hbehind

/-- The name of the program that was parsed, if one was. -/
def parsedName? : EStateM.Result (Error ReadingFault) Cursor Program → Option String
  | .ok p _ => some p.name.name
  | .error _ _ => none

theorem parsedName?_mapState (f : Cursor → Cursor)
    (result : EStateM.Result (Error ReadingFault) Cursor Program) :
    parsedName? (mapState f result) = parsedName? result := by
  cases result <;> rfl

/-- A source in which a program stops inside a compound, a sign and a parenthesis, and
another program follows. -/
def resumedSource : String := "PROGRAM p; BEGIN a := -(3 PROGRAM q; BEGIN END."

/-- What a first call parses from a stream, and what a call on a new cursor parses from where
it has stopped. -/
def twoNames? (s : TokenStream) : Option (Option String × Option String) :=
  match ofStream s with
  | .ok c => some (parsedName? (Rule.wholeProgram c),
      parsedName? (Rule.wholeProgram (c.calls 1).renewed))
  | .error _ => none

/-- The first call fails three levels deep. The second one begins outside of everything and
parses the program that follows. -/
theorem depth_balanced_resumed :
    ∃ first, ofStream (.ofSource resumedSource) = .ok first ∧
      parsedName? (Rule.wholeProgram first) = none ∧ (first.calls 1).depth = 0 ∧
      parsedName? (Rule.wholeProgram (first.calls 1)) = some "q" := by
  have hnames : twoNames? (.ofSource resumedSource) = some (none, some "q") := by decide +kernel
  unfold twoNames? at hnames
  cases hfirst : ofStream (.ofSource resumedSource) with
  | error e =>
    rw [hfirst] at hnames
    cases hnames
  | ok first =>
    rw [hfirst] at hnames
    obtain ⟨hfails, hnext⟩ := Prod.mk.inj (Option.some.inj hnames)
    obtain ⟨hdepth, hsame⟩ := depth_balanced.2 _ first hfirst 1
    refine ⟨first, rfl, hfails, hdepth, ?_⟩
    rw [hsame, parsedName?_mapState, hnext]

end MiniPascal

/-
`Logbook.lean` -- what a run writes down.

Whoever watches a run sees tokens as they are read and assignments as they are performed.
Both logs are complete. The tokens are those that parsing has read, in the order of the
source, and parsing stops behind the last of them (`StopsBehind`). The assignments are those
that were executed, each with its value, up to the first that failed (`Executes`); and since
an assignment is noted when it changes the store, performing the log again on an empty store
leads to the store of the machine, also where the execution was cut short (`Store.replay`).

Events of other stages have other messages, so the two logs can be picked out of the events
of a run (`said`). An event of a token has the kind of the token and its place for fields, one
of an assignment has the name and the value, and the texts of the fields tell these apart from
all others. So the logs are what can be read off the events, and `run_logged` speaks of what
is read.
-/
import Mathlib.Data.List.Forall2
import MiniPascal.Proofs.Assigning
import MiniPascal.Proofs.Landmarks
import MiniPascal.Proofs.Printing
import MiniPascal.Proofs.Readahead
import MiniPascal.Proofs.Session
import MiniPascal.Proofs.Wording

set_option autoImplicit false

namespace MiniPascal

open Cursor

variable {source : String}

/-! ## Events by message -/

/-- The events with one message. -/
def said (message : String) (events : List Event) : List Event :=
  events.filter fun event => event.message == message

theorem said_append (message : String) (events events' : List Event) :
    said message (events ++ events') = said message events ++ said message events' :=
  List.filter_append _ _

theorem said_eq_self {message : String} {events : List Event}
    (h : ∀ event ∈ events, event.message = message) : said message events = events :=
  List.filter_eq_self.mpr fun event hevent => beq_iff_eq.mpr (h event hevent)

theorem said_eq_nil {message : String} {events : List Event}
    (h : ∀ event ∈ events, event.message ≠ message) : said message events = [] :=
  List.filter_eq_nil_iff.mpr fun event hevent heq => h event hevent (beq_iff_eq.mp heq)

theorem said_eq_nil_of {message other : String} {events : List Event} (hne : other ≠ message)
    (h : ∀ event ∈ events, event.message = other) : said message events = [] :=
  said_eq_nil fun event hevent => h event hevent ▸ hne

theorem Event.message_of_tokens {ts : List Token} :
    ∀ event ∈ ts.map Event.ofToken, event.message = "lexed token" := by
  intro event hevent
  obtain ⟨t, -, rfl⟩ := List.mem_map.mp hevent
  rfl

theorem Event.message_of_assignments {done : List (String × Number)} :
    ∀ event ∈ done.map Event.ofAssignment, event.message = "assign" := by
  intro event hevent
  obtain ⟨entry, -, rfl⟩ := List.mem_map.mp hevent
  rfl

/-- A message that begins with a line break is none of those that begin with a letter. -/
theorem newline_append_ne (text : String) {message : String} {first : Char} {rest : List Char}
    (h : message.toList = first :: rest) (hfirst : first ≠ '\n') : "\n" ++ text ≠ message := by
  intro heq
  have hlist := congrArg String.toList heq
  rw [String.toList_append, h] at hlist
  exact hfirst (List.cons.inj hlist).1.symm

/-- The static pass neither reads nor assigns. -/
theorem Event.message_ofScopeEvent (happened : ScopeEvent) :
    ∀ event ∈ ofScopeEvent happened,
      event.message ≠ "lexed token" ∧ event.message ≠ "assign" := by
  intro event hevent
  cases happened with
  | left table =>
    rcases List.mem_cons.mp hevent with rfl | hevent
    · exact ⟨by simp, by simp⟩
    · rw [List.mem_singleton.mp hevent]
      exact ⟨newline_append_ne table.text rfl (by decide),
        newline_append_ne table.text rfl (by decide)⟩
  | _ =>
    rw [List.mem_singleton.mp hevent]
    exact ⟨by simp, by simp⟩

/-! ## Reading events -/

namespace Event

/-- The value of a field. -/
def field? (event : Event) (name : String) : Option Field := event.fields.lookup name

/-- The fields of the event are those of a token of this kind at this place. -/
def ShowsToken (event : Event) (mark : Landmark) : Prop :=
  event.field? "kind" = some (.text mark.1.text) ∧
    event.field? "position" = some (.text mark.2.text)

/-- The fields of the event are those of an assignment of this value to this name. -/
def ShowsAssignment (event : Event) (entry : String × Number) : Prop :=
  event.field? "name" = some (.text entry.1) ∧
    event.field? "value" = some (.text entry.2.text)

/-- A field has one text. -/
theorem text_eq_of_field? {event : Event} {name text text' : String}
    (h : event.field? name = some (.text text)) (h' : event.field? name = some (.text text')) :
    text = text' :=
  Field.text.inj (Option.some.inj (h.symm.trans h'))

/-- An event shows one token. -/
theorem showsToken_unique : Relator.RightUnique ShowsToken := by
  rintro event mark mark' ⟨hkind, hposition⟩ ⟨hkind', hposition'⟩
  exact Prod.ext (Kind.text_injective (text_eq_of_field? hkind hkind'))
    (Position.text_injective (text_eq_of_field? hposition hposition'))

/-- An event shows one assignment. -/
theorem showsAssignment_unique : Relator.RightUnique ShowsAssignment := by
  rintro event entry entry' ⟨hname, hvalue⟩ ⟨hname', hvalue'⟩
  exact Prod.ext (text_eq_of_field? hname hname')
    (Number.text_injective (text_eq_of_field? hvalue hvalue'))

/-- What events show can be read off them, if each is made of one thing and shows one thing. -/
theorem forall₂_map_iff {α β : Type} {shows : Event → β → Prop}
    (hunique : Relator.RightUnique shows) {make : α → Event} (shown : α → β)
    (hshows : ∀ a, shows (make a) (shown a)) (as : List α) {read : List β} :
    List.Forall₂ shows (as.map make) read ↔ read = as.map shown := by
  have hmade : List.Forall₂ shows (as.map make) (as.map shown) := by
    rw [List.forall₂_map_left_iff, List.forall₂_map_right_iff, List.forall₂_same]
    exact fun a _ => hshows a
  constructor
  · exact fun hread => List.right_unique_forall₂' hunique hread hmade
  · rintro rfl
    exact hmade

/-- The tokens can be read off their events. -/
theorem showsToken_map_iff (ts : List Token) {read : List Landmark} :
    List.Forall₂ ShowsToken (ts.map ofToken) read ↔ read = ts.map Token.landmark :=
  forall₂_map_iff showsToken_unique Token.landmark (fun _ => ⟨rfl, rfl⟩) ts

/-- The assignments can be read off their events. -/
theorem showsAssignment_map_iff (log : List (String × Number)) {read : List (String × Number)} :
    List.Forall₂ ShowsAssignment (log.map ofAssignment) read ↔ read = log := by
  rw [forall₂_map_iff showsAssignment_unique id (fun _ => ⟨rfl, rfl⟩) log, List.map_id]

end Event

/-! ## Stages -/

namespace Traced

theorem events_bind {α β : Type} (x : Traced α) (f : α → Traced β) :
    (x >>= f).events = x.events ++ match x.result with
      | .ok a => (f a).events
      | .error _ => [] := by
  rcases x with ⟨events, result⟩
  cases result with
  | ok a => rfl
  | error e => exact (List.append_nil events).symm

theorem message_resolve (p : Program) : ∀ event ∈ (resolve p).events,
    event.message ≠ "lexed token" ∧ event.message ≠ "assign" := by
  intro event hevent
  rw [events_resolve] at hevent
  obtain ⟨happened, -, hmem⟩ := List.mem_flatMap.mp hevent
  exact Event.message_ofScopeEvent happened event hmem

/-- The tokens that parsing has read come first. -/
theorem exists_events_parse (source : String) : ∃ ts : List Token, ∃ rest,
    (parse source).events = ts.map Event.ofToken ++ rest ∧
    (∀ event ∈ rest, event.message = "parsed program") ∧
    (∀ t ∈ ts, t.kind.isEnd = false) ∧ StopsBehind source ts (MiniPascal.parse source) := by
  cases hc : ofStream (.ofSource source) with
  | error e =>
    obtain ⟨e', rfl, hdrain⟩ := drain_of_error hc
    refine ⟨[], [], ?_, fun _ h => absurd h List.not_mem_nil,
      fun _ h => absurd h List.not_mem_nil, ?_⟩
    · simp only [parse, hc, List.map_nil, List.append_nil]
    · rw [MiniPascal.parse, parse, hc]
      exact .lexical hdrain
  | ok c =>
    have hread := (Script.wholeProgram.readings (hasRead_ofStream hc)).2
    rw [Script.run_wholeProgram] at hread
    cases hrun : Rule.wholeProgram c with
    | ok p d =>
      rw [hrun] at hread
      have hread : HasRead source d := hread
      obtain ⟨-, -, -, -, -, hend⟩ := Rule.exists_of_wholeProgram hrun
      refine ⟨d.seen.toList, [Event.ofProgram p], ?_, ?_, not_end_of_kept hread.upcoming_eq, ?_⟩
      · simp only [parse, hc, ofCursor, hrun]
      · intro event hevent
        rw [List.mem_singleton.mp hevent]
        rfl
      · rw [parse_of_ok hc hrun]
        exact .parsed (hread.scans hend)
    | error e d =>
      rw [hrun] at hread
      have hhalts : Halts source e d := hread
      refine ⟨d.seen.toList, [], ?_, fun _ h => absurd h List.not_mem_nil, hhalts.not_end, ?_⟩
      · simp only [parse, hc, ofCursor, hrun, List.append_nil]
      · rw [parse_of_error hc hrun]
        exact hhalts.stopsBehind

end Traced

/-! ## Executed assignments -/

/-- Assignments are executed from a store on, and these names and values are what they
assign: all of them, or those before one whose value cannot be computed. -/
inductive Executes : Store → List Assignment → List (String × Number) →
    Except (Error RuntimeFault) Unit → Prop
  | ended (s : Store) : Executes s [] [] (.ok ())
  | assigned {s : Store} {a : Assignment} {as : List Assignment} {value : Number}
      {done : List (String × Number)} {outcome : Except (Error RuntimeFault) Unit} :
      a.value.value s = .ok value → Executes (s.assign a.target.name value) as done outcome →
      Executes s (a :: as) ((a.target.name, value) :: done) outcome
  | stopped {s : Store} {a : Assignment} {as : List Assignment} {e : Error RuntimeFault} :
      a.value.value s = .error e → Executes s (a :: as) [] (.error e)

/-- The store after all assignments of a log have been made again. -/
def Store.replay (s : Store) (log : List (String × Number)) : Store :=
  log.foldl (fun s entry => s.assign entry.1 entry.2) s

namespace Execute

/-- The step lemma: a machine notes what it assigns, and its store is what these notes
lead to. -/
theorem executes_assignAll (as : List Assignment) (m : Machine) : ∃ done,
    (stateAfter (assignAll as m)).assignments.toList = m.assignments.toList ++ done ∧
    (stateAfter (assignAll as m)).store = m.store.replay done ∧
    Executes m.store as done (match assignAll as m with
      | .ok _ _ => .ok ()
      | .error e _ => .error e) := by
  induction as generalizing m with
  | nil => exact ⟨[], (List.append_nil _).symm, rfl, .ended _⟩
  | cons a as ih =>
    rw [assignAll]
    cases hvalue : a.value.value m.store with
    | error e =>
      rw [bind_of_error (assign_of_error hvalue)]
      exact ⟨[], (List.append_nil _).symm, rfl, .stopped hvalue⟩
    | ok value =>
      rw [bind_of_ok (assign_of_ok hvalue)]
      -- the rest is noted behind the first assignment
      obtain ⟨done, hnoted, hstore, hexecutes⟩ := ih (assigned m a.target.name value)
      refine ⟨(a.target.name, value) :: done, ?_, hstore, .assigned hvalue hexecutes⟩
      rw [hnoted, assigned, Array.toList_push, List.append_assoc]
      rfl

end Execute

/-- A program on a fresh machine: the events are the assignments that it has executed, and
the store is what they lead to. -/
theorem Traced.exists_execute (p : Program) : ∃ done,
    (execute p).events = done.map Event.ofAssignment ∧
    Executes ∅ (bodyAssignments p.block.body) done (Machine.fresh.interpret p).1 ∧
    (Machine.fresh.interpret p).2.store = Store.replay ∅ done ∧
    (execute p).result = match (Machine.fresh.interpret p).1 with
      | .ok _ => .ok (Machine.fresh.interpret p).2.store
      | .error e => .error (e.map Fault.runtime) := by
  obtain ⟨done, hnoted, hstore, hexecutes⟩ :=
    Execute.executes_assignAll (bodyAssignments p.block.body) .fresh
  rw [← Execute.program_eq] at hnoted hstore hexecutes
  refine ⟨done, ?_⟩
  unfold execute Machine.interpret
  cases hrun : Execute.program p .fresh <;>
  · rw [hrun] at hnoted hstore hexecutes
    exact ⟨congrArg (List.map Event.ofAssignment) hnoted, hexecutes, hstore, rfl⟩

/-! ## Runs -/

/-- A check parses, and then it neither reads nor assigns. -/
theorem Traced.events_check (source : String) : ∃ passed : List Event,
    (check source).events = (parse source).events ++ passed ∧
    ∀ event ∈ passed, event.message ≠ "lexed token" ∧ event.message ≠ "assign" := by
  rw [check, events_bind]
  cases (parse source).result with
  | error e => exact ⟨[], rfl, fun _ h => absurd h List.not_mem_nil⟩
  | ok p =>
    refine ⟨(resolve p).events, ?_, message_resolve p⟩
    dsimp only
    -- what comes last in a check only gives the program back
    rw [events_bind]
    cases (resolve p).result <;> exact congrArg _ (List.append_nil _)

/-- Only parsing reads. -/
theorem Traced.said_lexed_run (source : String) :
    said "lexed token" (run source).events = said "lexed token" (parse source).events := by
  obtain ⟨passed, hevents, hpassed⟩ := events_check source
  have hcheck : said "lexed token" (check source).events =
      said "lexed token" (parse source).events := by
    rw [hevents, said_append, said_eq_nil fun event h => (hpassed event h).1, List.append_nil]
  rw [run, events_bind, said_append, hcheck]
  cases (check source).result with
  | error e => exact List.append_nil _
  | ok p =>
    obtain ⟨done, hdone, -⟩ := exists_execute p
    have hassigned : said "lexed token" (done.map Event.ofAssignment) = [] :=
      said_eq_nil_of (by simp) Event.message_of_assignments
    dsimp only
    rw [hdone, hassigned, List.append_nil]

/-- Only the execution assigns. -/
theorem Traced.said_assign_run (source : String) :
    said "assign" (run source).events = match (check source).result with
      | .ok p => (execute p).events
      | .error _ => [] := by
  obtain ⟨passed, hevents, hpassed⟩ := events_check source
  obtain ⟨ts, rest, hparse, hrest, -⟩ := exists_events_parse source
  have hcheck : said "assign" (check source).events = [] := by
    have htokens : said "assign" (ts.map Event.ofToken) = [] :=
      said_eq_nil_of (by simp) Event.message_of_tokens
    have hparsed : said "assign" rest = [] := said_eq_nil_of (by simp) hrest
    rw [hevents, said_append, said_eq_nil fun event h => (hpassed event h).2, hparse, said_append,
      htokens, hparsed]
    rfl
  rw [run, events_bind, said_append, hcheck, List.nil_append]
  cases (check source).result with
  | error e => rfl
  | ok p =>
    obtain ⟨done, hdone, -⟩ := exists_execute p
    dsimp only
    rw [hdone]
    exact said_eq_self Event.message_of_assignments

/-- **The log of a run is complete and exact.** The kinds and places that can be read off the
events of tokens are those of the first tokens of the source, each once and without the end of
the input, up to where parsing has stopped: all of them behind a success, those up to the refused
one behind a syntax error, and those before the piece of text that is no token behind a lexical
error. While parsing went on, no token behind the current one had been read. If the source does
not pass the checks there is no event of an assignment. If it does, the names and values that can
be read off these events are those of the assignments that were executed, and making them again
on an empty store leads to the store of the machine, be the execution complete or not. -/
theorem run_logged (source : String) :
    (∃ ts : List Token, said "lexed token" (Traced.run source).events = ts.map Event.ofToken ∧
      (∀ read, List.Forall₂ Event.ShowsToken
        (said "lexed token" (Traced.run source).events) read ↔ read = ts.map Token.landmark) ∧
      (∀ t ∈ ts, t.kind.isEnd = false) ∧ StopsBehind source ts (parse source)) ∧
    (∀ first, ofStream (.ofSource source) = .ok first →
      NeverAhead source (Script.wholeProgram.trail first)) ∧
    (∀ e, check source = .error e → said "assign" (Traced.run source).events = []) ∧
    ∀ p, check source = .ok p → ∃ log : List (String × Number), ∃ outcome m,
      Machine.fresh.interpret p = (outcome, m) ∧
      said "assign" (Traced.run source).events = log.map Event.ofAssignment ∧
      (∀ read, List.Forall₂ Event.ShowsAssignment
        (said "assign" (Traced.run source).events) read ↔ read = log) ∧
      Executes ∅ (bodyAssignments p.block.body) log outcome ∧
      m.store = Store.replay ∅ log ∧
      run source = match outcome with
        | .ok _ => .ok m.store
        | .error e => .error (e.map Fault.runtime) := by
  refine ⟨?_, fun first hfirst => (Script.wholeProgram.readings (hasRead_ofStream hfirst)).1,
    fun e hcheck => ?_, fun p hcheck => ?_⟩
  · obtain ⟨ts, rest, hparse, hrest, hend, hstops⟩ := Traced.exists_events_parse source
    have hother : said "lexed token" rest = [] := said_eq_nil_of (by simp) hrest
    have hsaid : said "lexed token" (Traced.run source).events = ts.map Event.ofToken := by
      rw [Traced.said_lexed_run, hparse, said_append, said_eq_self Event.message_of_tokens, hother,
        List.append_nil]
    refine ⟨ts, hsaid, fun read => ?_, hend, hstops⟩
    rw [hsaid, Event.showsToken_map_iff]
  · rw [Traced.said_assign_run, show (Traced.check source).result = .error e from hcheck]
  · obtain ⟨log, hlog, hexecutes, hstore, hresult⟩ := Traced.exists_execute p
    have hsaid : said "assign" (Traced.run source).events = log.map Event.ofAssignment := by
      rw [Traced.said_assign_run, show (Traced.check source).result = .ok p from hcheck]
      exact hlog
    refine ⟨log, _, _, rfl, hsaid, fun read => ?_, hexecutes, hstore, ?_⟩
    · rw [hsaid, Event.showsAssignment_map_iff]
    · rw [run, Traced.run, Traced.result_bind,
        show (Traced.check source).result = .ok p from hcheck]
      exact hresult

/-- A source whose second assignment divides by zero. -/
def stoppingSource : String :=
  "PROGRAM p; VAR a : INTEGER; BEGIN a := 7; a := a DIV 0; a := 1 END."

/-- A source that assigns what it does not declare. -/
def undeclaredSource : String := "PROGRAM p; BEGIN a := 7 END."

/-- The execution of the first source stops. Its log is the one assignment before, which is read
off the event and gives `a` its value; the second source is not executed. -/
theorem run_logged_stopping :
    (∃ first, ofStream (.ofSource stoppingSource) = .ok first ∧
      NeverAhead stoppingSource (Script.wholeProgram.trail first)) ∧
    (∃ p m, check stoppingSource = .ok p ∧ (Machine.fresh.interpret p).2 = m ∧
      said "assign" (Traced.run stoppingSource).events =
        [⟨.debug, "assign", [("name", .text "a"), ("value", .text "7")]⟩] ∧
      List.Forall₂ Event.ShowsAssignment (said "assign" (Traced.run stoppingSource).events)
        [("a", .integer 7)] ∧
      m.store = Store.replay ∅ [("a", .integer 7)] ∧ m.store.get? "a" = some (.integer 7)) ∧
    said "assign" (Traced.run undeclaredSource).events = [] := by
  have hread : (ofStream (.ofSource stoppingSource)).isOk = true := by decide +kernel
  have hpassed : (check stoppingSource).isOk = true := by decide +kernel
  have hrefused : (check undeclaredSource).isOk = false := by decide +kernel
  have hsaid : said "assign" (Traced.run stoppingSource).events =
      [⟨.debug, "assign", [("name", .text "a"), ("value", .text "7")]⟩] := by decide +kernel
  have hshows : List.Forall₂ Event.ShowsAssignment
      (said "assign" (Traced.run stoppingSource).events) [("a", .integer 7)] := by
    rw [hsaid]
    exact .cons ⟨rfl, rfl⟩ .nil
  obtain ⟨-, hahead, -, hassigned⟩ := run_logged stoppingSource
  obtain ⟨-, -, hnone, -⟩ := run_logged undeclaredSource
  refine ⟨?_, ?_, ?_⟩
  · cases hfirst : ofStream (.ofSource stoppingSource) with
    | error e => rw [hfirst] at hread; cases hread
    | ok first => exact ⟨first, rfl, hahead first hfirst⟩
  · cases hcheck : check stoppingSource with
    | error e => rw [hcheck] at hpassed; cases hpassed
    | ok p =>
      obtain ⟨log, outcome, m, hm, -, hlog, -, hstore, -⟩ := hassigned p hcheck
      obtain rfl := (hlog _).mp hshows
      exact ⟨p, m, rfl, by rw [hm], hsaid, hshows, hstore, by rw [hstore]; rfl⟩
  · cases hcheck : check undeclaredSource with
    | error e => exact hnone e hcheck
    | ok p => rw [hcheck] at hrefused; cases hrefused

end MiniPascal

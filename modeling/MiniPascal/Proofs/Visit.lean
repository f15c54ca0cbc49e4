/-
`Visit.lean` -- a program as the moments of a visit.

Whoever checks a program by hand goes through it once: into the block, over its
declarations, into the block of each procedure and out of it again, over the names of the
body, and out. A `Moment` is one step of this with the place where it is made, which is the
block that one is in and the blocks around it, each with those of its declarations that
have been met (`OpenBlock`). The moments of a program are a function of its tree
(`Program.moments`) and say nothing of tables, indices or a record.

A moment stands for itself: what it logs, or why it fails, can be told from the blocks
around it (`Moment.outcome`). Successive moments fit together, since each is made in the
blocks that the one before it has left (`Leads`), and this is all that the nesting of the
log rests on (`Leads.nests`).
-/
import MiniPascal.Proofs.Enclosure
import MiniPascal.Proofs.Listing
import MiniPascal.Scope.Resolution

set_option autoImplicit false

namespace MiniPascal

/-! ## Open blocks -/

/-- A block that is being visited: its name, and those of its declarations that have been
met. -/
structure OpenBlock where
  name : String
  declared : List Declaration

/-- The scope of the innermost of some blocks. Scopes are numbered from the outside in. -/
def innermost? : List OpenBlock → Option ScopeId
  | [] => none
  | _ :: outer => some ⟨outer.length⟩

/-- The table of a block inside other ones. -/
def OpenBlock.table (b : OpenBlock) (outer : List OpenBlock) : Table :=
  (Table.opened b.name (outer.length + 1) (innermost? outer)).declareAll b.declared

theorem OpenBlock.table_frame (b : OpenBlock) (outer : List OpenBlock) :
    (b.table outer).name = b.name ∧ (b.table outer).level = outer.length + 1 ∧
      (b.table outer).enclosing = innermost? outer :=
  Table.declareAll_frame _ b.declared

/-- The arena in which exactly these blocks are open. -/
def arenaOf : List OpenBlock → Arena
  | [] => ∅
  | b :: outer => ⟨(arenaOf outer).tables.push (b.table outer)⟩

/-- The variable that a name means inside some blocks: that of the innermost one which
declares it. -/
def variableIn (blocks : List OpenBlock) (name : String) : Option Symbol :=
  blocks.findSome? fun b => b.declared.findSome? (Declaration.variableAs? name)

theorem variableIn_cons (b : OpenBlock) (outer : List OpenBlock) (name : String) :
    variableIn (b :: outer) name =
      (b.declared.findSome? (Declaration.variableAs? name)).or (variableIn outer name) := by
  rw [variableIn, List.findSome?_cons]
  cases b.declared.findSome? (Declaration.variableAs? name) <;> rfl

/-! ## Moments -/

/-- What is done at a moment. -/
inductive Step where
  | enter
  | declare (d : Declaration)
  | resolve (x : Identifier)
  | leave

/-- A step, the block in which it is made, and the blocks around that, from the inside
out. -/
structure Moment where
  block : OpenBlock
  outer : List OpenBlock
  step : Step

mutual

/-- The moments of a declaration, in a block that has met the declarations `before`. The
block of a procedure is visited at once, and does see the procedure itself. -/
def Declaration.moments (outer : List OpenBlock) (scope : String) (before : List Declaration) :
    Declaration → List Moment
  | .variable name type => [⟨⟨scope, before⟩, outer, .declare (.variable name type)⟩]
  | .procedure name inner own =>
    let around := ⟨scope, before ++ [.procedure name inner own]⟩ :: outer
    ⟨⟨scope, before⟩, outer, .declare (.procedure name inner own)⟩ ::
      ⟨⟨name.name, []⟩, around, .enter⟩ ::
        (declarationMoments around name.name [] inner ++
          ((bodyOccurrences own).map fun x => ⟨⟨name.name, inner⟩, around, .resolve x⟩) ++
          [⟨⟨name.name, inner⟩, around, .leave⟩])

/-- The moments of declarations, one after another. -/
def declarationMoments (outer : List OpenBlock) (scope : String) (before : List Declaration) :
    List Declaration → List Moment
  | [] => []
  | d :: ds => d.moments outer scope before ++ declarationMoments outer scope (before ++ [d]) ds

end

/-- The moments of a body, in a block that has met all of its declarations. -/
def bodyMoments (b : OpenBlock) (outer : List OpenBlock) (body : List Statement) : List Moment :=
  (bodyOccurrences body).map fun x => ⟨b, outer, .resolve x⟩

/-- The moments of a block inside other ones. -/
def blockMoments (outer : List OpenBlock) (name : String) (ds : List Declaration)
    (body : List Statement) : List Moment :=
  ⟨⟨name, []⟩, outer, .enter⟩ ::
    (declarationMoments outer name [] ds ++ bodyMoments ⟨name, ds⟩ outer body ++
      [⟨⟨name, ds⟩, outer, .leave⟩])

/-- The moments of a program. -/
def Program.moments (p : Program) : List Moment :=
  blockMoments [] p.name.name p.block.declarations p.block.body

namespace Moment

/-- The blocks that are open before it. -/
def start : Moment → List OpenBlock
  | ⟨_, outer, .enter⟩ => outer
  | ⟨b, outer, .declare _⟩ => b :: outer
  | ⟨b, outer, .resolve _⟩ => b :: outer
  | ⟨b, outer, .leave⟩ => b :: outer

/-- The blocks that are open after it. -/
def next : Moment → List OpenBlock
  | ⟨b, outer, .enter⟩ => ⟨b.name, []⟩ :: outer
  | ⟨b, outer, .declare d⟩ => ⟨b.name, b.declared ++ [d]⟩ :: outer
  | ⟨b, outer, .resolve _⟩ => b :: outer
  | ⟨_, outer, .leave⟩ => outer

/-- The event that it logs, or the reason why it fails: a declared name must be new among
those of its sort in the block, and a variable must mean something. -/
def outcome : Moment → Except (Error ScopeFault) ScopeEvent
  | ⟨b, outer, .enter⟩ => .ok (.entered b.name (outer.length + 1))
  | ⟨b, _, .declare d⟩ =>
    if d.name.name ∈ d.rivals b.declared then
      .error ⟨.duplicateDeclaration d.name.name b.name, d.name.position⟩
    else .ok (.declared b.name d.symbol)
  | ⟨b, outer, .resolve x⟩ =>
    match variableIn (b :: outer) x.name with
    | some symbol => .ok (.resolved x.name symbol)
    | none => .error ⟨.undeclaredIdentifier x.name, x.position⟩
  | ⟨b, outer, .leave⟩ => .ok (.left (b.table outer))

/-- What it asks of the arena. -/
def operation : Moment → Arena.Operation
  | ⟨b, outer, .enter⟩ => .push b.name (innermost? outer)
  | ⟨_, outer, .declare d⟩ => .insert ⟨outer.length⟩ d.symbol
  | ⟨_, outer, .resolve x⟩ => .lookup ⟨outer.length⟩ x.name
  | ⟨_, _, .leave⟩ => .pop

/-- Only a check in the innermost block can fail. -/
theorem start_of_error {m : Moment} {e : Error ScopeFault} (h : m.outcome = .error e) :
    m.start = m.block :: m.outer := by
  obtain ⟨b, outer, step⟩ := m
  cases step with
  | enter => cases h
  | declare d => rfl
  | resolve x => rfl
  | leave => cases h

end Moment

/-! ## Moments in sequence -/

/-- Moments that begin inside the blocks `s` and end inside the blocks `t`, each made where
the one before it has led. -/
inductive Leads : List OpenBlock → List Moment → List OpenBlock → Prop
  | nil (s : List OpenBlock) : Leads s [] s
  | cons (m : Moment) {ms : List Moment} {t : List OpenBlock} (hrest : Leads m.next ms t) :
      Leads m.start (m :: ms) t

theorem Leads.append {s t u : List OpenBlock} {ms ns : List Moment} (h : Leads s ms t)
    (h' : Leads t ns u) : Leads s (ms ++ ns) u := by
  induction h with
  | nil => exact h'
  | cons m _ ih => exact .cons m (ih h')

/-- Moments in two parts lead to where the second part begins. -/
theorem Leads.split {s u : List OpenBlock} {ms ns : List Moment} (h : Leads s (ms ++ ns) u) :
    ∃ t, Leads s ms t ∧ Leads t ns u := by
  induction ms generalizing s with
  | nil => exact ⟨s, .nil s, h⟩
  | cons m ms ih =>
    cases h with
    | cons _ hrest =>
      obtain ⟨t, hms, hns⟩ := ih hrest
      exact ⟨t, .cons m hms, hns⟩

theorem leads_bodyMoments (b : OpenBlock) (outer : List OpenBlock) (body : List Statement) :
    Leads (b :: outer) (bodyMoments b outer body) (b :: outer) := by
  unfold bodyMoments
  induction bodyOccurrences body with
  | nil => exact .nil _
  | cons x xs ih => exact .cons ⟨b, outer, .resolve x⟩ ih

/-- A block leads back to where it was entered, if its declarations lead from one to the
next. -/
theorem leads_blockMoments_of {outer : List OpenBlock} {name : String} {ds : List Declaration}
    (h : Leads (⟨name, []⟩ :: outer) (declarationMoments outer name [] ds) (⟨name, ds⟩ :: outer))
    (body : List Statement) : Leads outer (blockMoments outer name ds body) outer :=
  .cons ⟨⟨name, []⟩, outer, .enter⟩
    ((h.append (leads_bodyMoments ⟨name, ds⟩ outer body)).append
      (.cons ⟨⟨name, ds⟩, outer, .leave⟩ (.nil outer)))

mutual

theorem leads_moments {outer : List OpenBlock} {scope : String} {before : List Declaration}
    (d : Declaration) : Leads (⟨scope, before⟩ :: outer) (d.moments outer scope before)
      (⟨scope, before ++ [d]⟩ :: outer) := by
  match d with
  | .variable name type =>
    exact .cons ⟨⟨scope, before⟩, outer, .declare (.variable name type)⟩ (.nil _)
  | .procedure name inner own =>
    exact .cons ⟨⟨scope, before⟩, outer, .declare (.procedure name inner own)⟩
      (leads_blockMoments_of (leads_declarationMoments inner) own)

theorem leads_declarationMoments {outer : List OpenBlock} {scope : String}
    {before : List Declaration} (ds : List Declaration) :
    Leads (⟨scope, before⟩ :: outer) (declarationMoments outer scope before ds)
      (⟨scope, before ++ ds⟩ :: outer) := by
  match ds with
  | [] =>
    rw [List.append_nil]
    exact .nil _
  | d :: ds =>
    rw [List.append_cons]
    exact (leads_moments d).append (leads_declarationMoments ds)

end

theorem Program.leads_moments (p : Program) : Leads [] p.moments [] :=
  leads_blockMoments_of (leads_declarationMoments p.block.declarations) p.block.body

/-! ## The nesting of a log -/

/-- The names and levels of some blocks. -/
def labels : List OpenBlock → List (String × Nat)
  | [] => []
  | b :: outer => (b.name, outer.length + 1) :: labels outer

theorem length_labels (blocks : List OpenBlock) : (labels blocks).length = blocks.length := by
  induction blocks with
  | nil => rfl
  | cons b outer ih => rw [labels, List.length_cons, ih, List.length_cons]

/-- Reads one event like a parenthesis, inside those that are open. What is entered is one
level deeper than what it is entered in, a symbol is declared in what was entered last, and
only that can be left. -/
def nest (around : List (String × Nat)) : ScopeEvent → Option (List (String × Nat))
  | .entered name level =>
    if level = around.length + 1 then some ((name, level) :: around) else none
  | .declared scope _ =>
    match around with
    | (name, _) :: _ => if scope = name then some around else none
    | [] => none
  | .resolved _ _ =>
    match around with
    | _ :: _ => some around
    | [] => none
  | .left t =>
    match around with
    | (name, level) :: outer => if t.name = name ∧ t.level = level then some outer else none
    | [] => none

/-- The step lemma: an event fits to where it is logged. -/
theorem Moment.nest_event {m : Moment} {event : ScopeEvent} (h : m.outcome = .ok event) :
    nest (labels m.start) event = some (labels m.next) := by
  obtain ⟨b, outer, step⟩ := m
  cases step with
  | enter =>
    cases h
    exact if_pos (by rw [Moment.start, length_labels])
  | declare d =>
    rw [Moment.outcome] at h
    split at h
    · cases h
    · cases h
      exact if_pos rfl
  | resolve x =>
    rw [Moment.outcome] at h
    split at h
    · cases h
      rfl
    · cases h
  | leave =>
    cases h
    obtain ⟨hname, hlevel, -⟩ := b.table_frame outer
    exact if_pos ⟨hname, hlevel⟩

/-- The run lemma: the events of moments nest. -/
theorem Leads.nests {s t : List OpenBlock} {ms : List Moment} {events : List ScopeEvent}
    (h : Leads s ms t) (hevents : ms.map Moment.outcome = events.map .ok) :
    events.foldlM nest (labels s) = some (labels t) := by
  induction h generalizing events with
  | nil s =>
    obtain rfl : events = [] := by simpa using hevents
    rfl
  | cons m _ ih =>
    cases events with
    | nil => cases hevents
    | cons event events =>
      obtain ⟨hevent, hrest⟩ := List.cons.inj hevents
      rw [List.foldlM_cons, Moment.nest_event hevent]
      exact ih hrest

/-! ## Distinct names -/

/-- In none of some blocks a name has been declared twice. -/
def AllDistinct (blocks : List OpenBlock) : Prop := ∀ b ∈ blocks, Distinct b.declared

theorem allDistinct_nil : AllDistinct [] := fun _ hb => absurd hb List.not_mem_nil

theorem allDistinct_cons_iff {b : OpenBlock} {outer : List OpenBlock} :
    AllDistinct (b :: outer) ↔ Distinct b.declared ∧ AllDistinct outer := List.forall_mem_cons

/-- A moment that does not fail declares no name a second time. -/
theorem Moment.allDistinct_next {m : Moment} {event : ScopeEvent} (h : m.outcome = .ok event)
    (hm : AllDistinct m.start) : AllDistinct m.next := by
  obtain ⟨b, outer, step⟩ := m
  cases step with
  | enter => exact allDistinct_cons_iff.mpr ⟨distinct_nil, hm⟩
  | declare d =>
    obtain ⟨hb, houter⟩ := allDistinct_cons_iff.mp hm
    rw [Moment.outcome] at h
    split at h
    · cases h
    · next hfree =>
      exact allDistinct_cons_iff.mpr ⟨distinct_concat_iff.mpr ⟨hb, hfree⟩, houter⟩
  | resolve x => exact hm
  | leave => exact (allDistinct_cons_iff.mp hm).2

/-- So neither do any that follow. -/
theorem Leads.allDistinct {s t : List OpenBlock} {ms : List Moment} {events : List ScopeEvent}
    (h : Leads s ms t) (hevents : ms.map Moment.outcome = events.map .ok) (hs : AllDistinct s) :
    (∀ m ∈ ms, AllDistinct m.start) ∧ AllDistinct t := by
  induction h generalizing events with
  | nil s => exact ⟨fun m hm => absurd hm List.not_mem_nil, hs⟩
  | cons m _ ih =>
    cases events with
    | nil => cases hevents
    | cons event events =>
      obtain ⟨hevent, hrest⟩ := List.cons.inj hevents
      obtain ⟨hall, ht⟩ := ih hrest (Moment.allDistinct_next hevent hs)
      exact ⟨List.forall_mem_cons.mpr ⟨hs, hall⟩, ht⟩

end MiniPascal
